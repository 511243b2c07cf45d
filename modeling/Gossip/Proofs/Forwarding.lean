import Gossip.Journal
import Gossip.Proofs.Construction
import Gossip.Proofs.Membership.Lifetime
import Gossip.Proofs.Metadata.Learning
import Gossip.Proofs.Operation
import Mathlib.Data.List.Dedup

/-!
How a node without an offload program forwards a wave. It takes in the metadata if that is news,
stores the sender, drops the members that are too old, and sends the same bytes to as many of the
peers it then knows as it may, leaving out itself and those that the wave has reached. The sender
counts among them, as it is stored before anybody is chosen.
-/

set_option autoImplicit false
set_option relaxedAutoImplicit false

namespace Gossip

/-! ### How many are chosen -/

/-- The keys of the members of a list that a wave has not reached, each of them once. A node does
not count itself. -/
def unreached (self : Member) (members : List Member) (infected : Infected) : List String :=
  (members.map Member.key).dedup.filter fun key ↦
    key ≠ self.key ∧ infected.containsKey key = false

section Count

variable {self : Member} {members : List Member} {infected : Infected}

theorem mem_unreached {key : String} :
    key ∈ unreached self members infected ↔
      key ∈ members.map Member.key ∧ key ≠ self.key ∧ infected.containsKey key = false := by
  rw [unreached, List.mem_filter, List.mem_dedup, decide_eq_true_iff]

theorem nodup_unreached : (unreached self members infected).Nodup :=
  (List.nodup_dedup _).filter _

theorem length_unreached_perm {others : List Member} (h : members.Perm others) :
    (unreached self members infected).length = (unreached self others infected).length :=
  ((h.map Member.key).dedup.filter _).length_eq

theorem selectTargets_keys_subset (amount : ℕ) :
    (selectTargets self members amount infected).1.map Member.key ⊆
      unreached self members infected := by
  intro key hkey
  obtain ⟨m, hm, rfl⟩ := List.mem_map.mp hkey
  obtain ⟨hself, hmarked⟩ := passesOver_eq_false.mp (passesOver_of_mem_selectTargets hm)
  exact mem_unreached.mpr
    ⟨List.mem_map_of_mem ((selectTargets_sublist members amount infected).subset hm),
      fun h ↦ hself (Member.key_eq_iff.mp h), hmarked⟩

/-- As many peers are chosen as are asked for, or all there are. -/
theorem length_selectTargets (self : Member) (members : List Member) (amount : ℕ)
    (infected : Infected) :
    (selectTargets self members amount infected).1.length =
      min amount (unreached self members infected).length := by
  have hnodup : ((selectTargets self members amount infected).1.map Member.key).Nodup :=
    nodup_keys_selectTargets members amount infected
  have hmost : (selectTargets self members amount infected).1.length ≤ amount :=
    length_selectTargets_le members amount infected
  have hfew : (selectTargets self members amount infected).1.length ≤
      (unreached self members infected).length := by
    have h := (hnodup.subperm (selectTargets_keys_subset amount)).length_le
    rwa [List.length_map] at h
  have hall (hlength : (selectTargets self members amount infected).1.length < amount) :
      (unreached self members infected).length ≤
        (selectTargets self members amount infected).1.length := by
    -- Whoever is not reached is marked afterwards, and so is one of the chosen.
    have hsubset : unreached self members infected ⊆
        (selectTargets self members amount infected).1.map Member.key := by
      intro key hkey
      obtain ⟨hlisted, hself, hmarked⟩ := mem_unreached.mp hkey
      obtain ⟨m, hm, rfl⟩ := List.mem_map.mp hlisted
      have hreached := containsKey_of_length_lt hlength hm
        fun h ↦ hself (Member.key_eq_iff.mpr h)
      rw [containsKey_selectTargets, hmarked] at hreached
      exact hreached.resolve_left Bool.false_ne_true
    have h := (nodup_unreached.subperm hsubset).length_le
    rwa [List.length_map] at h
  omega

end Count

/-! ### What is asked of the link -/

/-- The requests that have been made, in their order. -/
def Journal.requests (j : Journal) : List Request := j.entries.map Prod.fst

section Requests

variable {ω : Type} (rules : Rules) (inner : Link ω)

theorem Journal.requests_send (s : Send) (w : Journal × ω) :
    ((Journal.link rules inner).send s w).2.1.requests = w.1.requests ++ [.send s] := by
  have hnote (result : Except Error Unit) :
      (w.1.note (.send s) result).requests = w.1.requests ++ [.send s] := by
    cases result <;> simp [note, requests]
  unfold link record
  dsimp only
  split <;> exact hnote _

/-- Every packet is asked for, whatever becomes of those before it. -/
theorem Journal.requests_sendEach (bytes : Bytes) (targets : List Member) (w : Journal × ω) :
    (sendEach (Journal.link rules inner) bytes targets w).1.requests =
      w.1.requests ++ targets.map fun m ↦ .send ⟨m.addr, m.port, bytes⟩ := by
  unfold sendEach
  induction targets generalizing w with
  | nil => simp
  | cons m rest ih => rw [List.foldl_cons, ih, requests_send, List.map_cons, List.append_assoc,
      List.singleton_append]

end Requests

/-! ### One wave -/

namespace Node

variable {ω : Type} (link : Link ω) {node : Node} (hbatching : node.batching = none)

include hbatching

/-- Without an offload program nobody is told of the version. -/
theorem takeUpdate_of_no_batching (h : Heartbeat) (w : ω) :
    node.takeUpdate link h w = ({ node with metadata := node.metadata.learn h.news? }, w) := by
  unfold takeUpdate Heartbeat.news?
  by_cases hupdate : h.isUpdate
  · rw [if_pos hupdate, if_pos hupdate]
    unfold adopt Metadata.adopt
    by_cases hnewer : h.metadata.Newer node.metadata
    · rw [if_pos hnewer, Metadata.learn_of_newer hnewer]
      simp only [pin, hbatching]
    · rw [if_neg hnewer, Metadata.learn_of_not_newer hnewer]
  · rw [if_neg hupdate, if_neg hupdate]
    rfl

theorem broadcast_of_no_batching (moment : Moment) (h : Heartbeat) (w : ω) :
    (node.broadcast link moment h w).2 =
      ({ node with membership := (node.membership.look moment).1 },
        sendEach link
          (forwardPacket node.settings.secret
            (onward node.settings node.membership moment h)).encode
          (choice node.settings node.membership moment h).1 w) := by
  rw [broadcast_eq]
  cases (choice node.settings node.membership moment h).1 with
  | nil => rfl
  | cons first rest =>
    unfold spread
    simp only [hbatching]

/-- A wave that is received: the stores behind it, and the packets that carry it on. -/
theorem receive_of_no_batching (moment : Moment) {message : Message} {h : Heartbeat}
    (hwave : message.wave? = some h) (w : ω) :
    let membership := (node.membership.set h.node moment.now).1
    node.receive link moment message w =
      ({ node with
          metadata := node.metadata.learn h.news?
          membership := (membership.look moment).1 },
        sendEach link
          (forwardPacket node.settings.secret (onward node.settings membership moment h)).encode
          (choice node.settings membership moment h).1 w) := by
  intro membership
  rw [node.receive_of_wave link moment hwave, receiveHeartbeat_eq, meeting,
    takeUpdate_of_no_batching link hbatching]
  have hmet : { node with membership, metadata := node.metadata.learn h.news? }.batching = none :=
    hbatching
  exact broadcast_of_no_batching link hmet moment h w

end Node

/-- A node that receives units as they were sent reads those under its secret. -/
theorem Node.read?_of_decode {node : Node}
    (hmode : node.settings.mode = .udp ∨ node.settings.mode = .tcp) {unit : Bytes}
    {message : Message} (hunit : Packet.decode unit = .ok ⟨node.settings.secret, message⟩) :
    node.read? unit = some message := by
  have hpayload : node.payload unit = .ok unit := by
    unfold payload
    rcases hmode with hmode | hmode <;> rw [hmode] <;> rfl
  exact read?_of_payload hpayload hunit

/-- The entries that are left when a member has been stored and a look has dropped what is too
old. -/
theorem Membership.mem_entries_look_set {m : Membership} (hfits : m.lifetime.seconds < 2 ^ 63)
    (member : Member) (moment : Moment) (v : Member) (second : ℤ) :
    (v, second) ∈ ((m.set member moment.now).1.look moment).1.seen.entries ↔
      (v = m.normalize member ∧ second = moment.now.seconds ∨
          v ≠ m.normalize member ∧ (v, second) ∈ m.seen.entries) ∧
        moment.now.seconds - second ≤ m.lifetime.seconds := by
  have hkept : (m.set member moment.now).1.isLive moment.now second = true ↔
      moment.now.seconds - second ≤ m.lifetime.seconds := by
    unfold isLive
    rw [decide_eq_true_iff, ttl_eq (show (m.set member moment.now).1.lifetime.seconds < 2 ^ 63
      from hfits)]
    rfl
  rw [← hkept, ← m.seen.mem_entries_insert]
  exact List.mem_filter

/-- Assumes: the node has been built, in a mode without an offload program, with a lifetime below
2^63 seconds, and a unit reads as a packet of a wave under its secret. Whatever metadata and members
the node holds, whatever the clock reads and whichever packets are refused: the metadata of the wave
is stored if the wave is an update and its version is strictly greater. The sender, as it is stored,
is seen now, and exactly the entries that are too old go. All that is asked of the link is to send
the same bytes to peers, as many as the node may send to or as there are: they are different live
peers, not the node itself, and none that the wave has reached. The bytes read as the wave going on,
without a batch, with exactly the keys of these peers marked beyond what was marked before. -/
theorem Node.forwards_to_unreached {self : Member} {settings : Settings} {offload : Bool}
    {built : Instant} {start : Node} (hbuild : Node.build self settings offload built = .ok start)
    (hmode : settings.mode = .udp ∨ settings.mode = .tcp)
    (hfits : start.settings.lifetime.seconds < 2 ^ 63) {unit : Bytes} {message : Message}
    {h : Heartbeat} (hunit : Packet.decode unit = .ok ⟨start.settings.secret, message⟩)
    (hwave : message.wave? = some h) (metadata : Metadata) (seen : Table Member ℤ)
    (moment : Moment) {ω : Type} (rules : Rules) (inner : Link ω) (journal : Journal) (w : ω) :
    let node := { start with metadata, membership := { start.membership with seen } }
    let handled := node.handle (Journal.link rules inner) moment unit (journal, w)
    let after := handled.1
    let sender := node.membership.normalize h.node
    after.metadata = (if h.isUpdate ∧ h.metadata.Newer metadata then h.metadata else metadata) ∧
      (∀ v second, (v, second) ∈ after.membership.seen.entries ↔
        (v = sender ∧ second = moment.now.seconds ∨ v ≠ sender ∧ (v, second) ∈ seen.entries) ∧
          moment.now.seconds - second ≤ start.settings.lifetime.seconds) ∧
      after = { node with
        metadata := after.metadata
        membership := { node.membership with seen := after.membership.seen } } ∧
      ∃ (sent : List Send) (bytes : Bytes) (infected : Infected),
        handled.2.1.requests = journal.requests ++ sent.map .send ∧
        sent.length = min start.settings.amount.toNat
          (unreached after.self after.membership.members h.infected).length ∧
        (sent.map Send.key).Nodup ∧
        (∀ s ∈ sent, s.bytes = bytes ∧ ∃ m ∈ after.membership.members,
          s.addr = m.addr ∧ s.port = m.port ∧ ¬m.SamePeer after.self ∧
            h.infected.contains m = false) ∧
        Packet.decode bytes = .ok ⟨start.settings.secret, .forward { h with infected } none⟩ ∧
        infected.MarksBeyond h.infected (sent.map Send.key) := by
  intro node
  obtain ⟨hstays, hring⟩ := Node.batching_eq_of_build hbuild
  have hbatching : node.batching = none := by
    rcases hmode with hmode | hmode <;> exact hring.trans (by rw [hmode]; rfl)
  have hread : node.read? unit = some message :=
    Node.read?_of_decode (hmode.imp hstays.trans hstays.trans) hunit
  have hlifetime : node.membership.lifetime = start.settings.lifetime :=
    congrArg (fun node : Node ↦ node.membership.lifetime) (Node.eq_of_build hbuild).2
  have hentries := node.membership.mem_entries_look_set (by rw [hlifetime]; exact hfits) h.node
    moment
  rw [hlifetime] at hentries
  have hhandle := Node.receive_of_no_batching (Journal.link rules inner) hbatching moment hwave
    (journal, w)
  dsimp only at hhandle
  rw [handle, hread]
  dsimp only
  rw [hhandle]
  let met := (node.membership.set h.node moment.now).1
  let targets := (choice node.settings met moment h).1
  let bytes := (forwardPacket node.settings.secret (onward node.settings met moment h)).encode
  let sent : List Send := targets.map fun m ↦ ⟨m.addr, m.port, bytes⟩
  have hlisted : (met.look moment).2.Perm (met.look moment).1.members := met.perm_look moment
  have hkeys : sent.map Send.key = targets.map Member.key := List.map_map
  have hcount : sent.length = min node.settings.amount.toNat
      (unreached met.self (met.look moment).1.members h.infected).length := by
    rw [List.length_map, ← length_unreached_perm hlisted]
    exact length_selectTargets met.self _ _ _
  refine ⟨Metadata.learn_news metadata h, hentries, rfl, sent, bytes,
    (choice node.settings met moment h).2, ?_, hcount, ?_, fun s hs ↦ ?_,
    Packet.decode_encode _, ?_⟩
  · rw [Journal.requests_sendEach, List.map_map]
    rfl
  · rw [hkeys]
    exact nodup_keys_selectTargets _ _ _
  · obtain ⟨m, hm, rfl⟩ := List.mem_map.mp hs
    have hlive := hlisted.subset ((selectTargets_sublist _ _ _).subset hm)
    exact ⟨rfl, m, hlive, rfl, rfl, passesOver_eq_false.mp (passesOver_of_mem_selectTargets hm)⟩
  · rw [hkeys]
    exact marksBeyond_selectTargets _ _ _

/-- The member of a number, in one subnet. -/
def inSubnet (number : ℕ) : Member :=
  { addr := "10.0.0." ++ String.ofList (Nat.toDigits 10 number), port := 1 }

/-- A wave about the second member, which has reached the third, and from which the mark of the
fourth has been cleared. -/
def passing : Heartbeat where
  node := inSubnet 2
  infected := .ofList [((inSubnet 3).key, true), ((inSubnet 4).key, false)]
  metadata := .ofData [1] 7
  isUpdate := true

/-- The members that the first one knows, the last of which is too old by ten seconds. -/
def acquaintances : Table Member ℤ :=
  [(1, 1700000000), (3, 1700000005), (4, 1700000009), (5, 1699999968)].foldl
    (fun seen entry ↦ seen.insert (inSubnet entry.1) entry.2) .empty

/-- The first member, as it is built. -/
def relay : Node where
  settings := { buffer := 90, lifetime := .ofSeconds 32 }
  membership :=
    .start (inSubnet 1) (.ofSeconds 32) ⟨255, 255, 255, 0⟩ "" (.ofParts 1700000000 0)

/-- What it does with the wave, once it has met the others. -/
def relaying : Node × Journal × Offload :=
  Node.handle (Journal.link {} Offload.link) (.plain (.ofParts 1700000010 0))
    { relay with membership := { relay.membership with seen := acquaintances } }
    (Packet.encode ⟨relay.settings.secret, .heartbeat passing⟩) ({}, {})

/-- The wave goes on to the fourth member, and back to the one that it is about. -/
theorem Node.forwards_to_unreached_two :
    Node.build (inSubnet 1) {} false (.ofParts 1700000000 0) = .ok relay ∧
      relay.settings.lifetime.seconds < 2 ^ 63 ∧
      let after := relaying.1
      after.metadata = passing.metadata ∧
        unreached after.self after.membership.members passing.infected =
          ["10.0.0.4:1", "10.0.0.2:1"] ∧
        ∃ sent : List Send, relaying.2.1.requests = sent.map .send ∧ sent.length = 2 ∧
          (sent.map Send.key).Nodup ∧ ∀ s ∈ sent, ∃ infected : Infected,
            Packet.decode s.bytes =
              .ok ⟨relay.settings.secret, .forward { passing with infected } none⟩ ∧
            infected.MarksBeyond passing.infected (sent.map Send.key) := by
  have hbuild : Node.build (inSubnet 1) {} false (.ofParts 1700000000 0) = .ok relay := rfl
  have hfits : relay.settings.lifetime.seconds < 2 ^ 63 := by decide
  have hread := Packet.decode_encode ⟨relay.settings.secret, .heartbeat passing⟩
  have hwave : (Message.heartbeat passing).wave? = some passing := rfl
  have hforwards := Node.forwards_to_unreached hbuild (Or.inl rfl) hfits hread hwave {}
    acquaintances (.plain (.ofParts 1700000010 0)) {} Offload.link {} {}
  have hunreached : unreached relaying.1.self relaying.1.membership.members passing.infected =
      ["10.0.0.4:1", "10.0.0.2:1"] := by decide +kernel
  dsimp only at hforwards
  generalize hrun : Node.handle (Journal.link {} Offload.link) _ _ _ _ = run at hforwards
  obtain rfl : relaying = run := hrun
  obtain ⟨hmetadata, -, -, sent, bytes, infected, hsent, hcount, hnodup, hpackets, hdecode,
    hmarks⟩ :=
    hforwards
  have hadopted := hmetadata.trans (if_pos ⟨rfl, by decide⟩)
  rw [hunreached] at hcount
  refine ⟨hbuild, hfits, hadopted, hunreached, sent, hsent, hcount, hnodup,
    fun s hs ↦ ⟨infected, ?_, hmarks⟩⟩
  rw [(hpackets s hs).1]
  exact hdecode

end Gossip
