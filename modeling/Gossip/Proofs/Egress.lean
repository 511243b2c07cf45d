import Gossip.Node.Operations
import Gossip.Proofs.Batch
import Gossip.Proofs.Packet.Layout
import Gossip.Proofs.Selection

/-!
What leaves a node. Beside its endpoint stands an offload program, attached to it, so that a
packet leaves as one parcel or as one for each target of its batch. A broadcast puts the marked
heartbeat on the network, once for each of its targets, whichever way it goes out; a comparison
puts at most an answer on it; and nothing else leaves a node.
-/

set_option autoImplicit false
set_option relaxedAutoImplicit false

namespace Gossip

/-- Bytes on their way to the peer of a key. -/
structure Parcel where
  key : String
  bytes : Bytes
  deriving DecidableEq

/-- What one packet becomes behind the program: a stamped replica for every target of its batch,
or itself. -/
def Offload.parcels (o : Offload) (s : Send) : List Parcel :=
  match o.replicas? s.bytes with
  | some targets => targets.mapIdx fun i target ↦ ⟨target.key, stampReplica i s.bytes⟩
  | none => [⟨s.key, s.bytes⟩]

/-- An endpoint's program, and what has left the endpoint so far. -/
structure Egress where
  offload : Offload
  parcels : List Parcel := []
  deriving DecidableEq

/-- The egress with more parcels. -/
def Egress.put (e : Egress) (parcels : List Parcel) : Egress :=
  { e with parcels := e.parcels ++ parcels }

/-- The link of an endpoint whose parcels are kept in order. -/
def Egress.link : Link Egress where
  send s e := (.ok (), e.put (e.offload.parcels s))
  register key targets e :=
    match e.offload.register key targets with
    | .ok o => (.ok (), { e with offload := o })
    | .error error => (.error error, e)
  pin version e := (.ok (), { e with offload := e.offload.pin version })

theorem map_mapIdx {α β γ : Type} {f : Nat → α → β} {g : β → γ} {k : α → γ}
    (h : ∀ i a, g (f i a) = k a) (l : List α) : (l.mapIdx f).map g = l.map k := by
  apply List.ext_getElem?
  intro i
  rw [List.getElem?_map, List.getElem?_mapIdx, List.getElem?_map, Option.map_map]
  exact Option.map_congr fun a _ ↦ h i a

/-! ### One packet -/

/-- In a packet without a batch the program finds none. -/
theorem Offload.replicas?_of_no_batch (o : Offload) {p : Packet}
    (h : (Wire.ofPacket p).batch = 0) : o.replicas? p.encode = none := by
  have hpeek : peekBatch p.encode = none :=
    peekBatch_write_of_zero (Wire.tag_ofPacket_lt p) (Wire.count_ofPacket_lt p) h
  unfold Offload.replicas?
  rw [hpeek]

/-- A packet without a batch leaves as it is. -/
theorem Offload.parcels_of_no_batch (o : Offload) {p : Packet} (h : (Wire.ofPacket p).batch = 0)
    (addr : String) (port : UInt16) :
    o.parcels ⟨addr, port, p.encode⟩ = [⟨peerKey addr port, p.encode⟩] := by
  unfold Offload.parcels
  rw [o.replicas?_of_no_batch h]
  rfl

theorem peekBatch_batchPacket (secret : String) (h : Heartbeat) (ring : KeyRing) :
    peekBatch (batchPacket secret h ring.key).encode = some ring.key := by
  have hleast := ring.least
  have hmost := ring.most
  have hword : (Wire.ofPacket (batchPacket secret h ring.key)).batch = ring.key.value := rfl
  have hnumber := ring.toNat_key
  rw [Packet.encode, peekBatch_write_of_three (Wire.tag_ofPacket_lt _) (Wire.count_ofPacket_lt _)
    (by rw [hword]; omega) (by rw [hword]; omega), hword, BatchKey.ofWord?_value]

/-! ### A broadcast -/

/-- One parcel for each of the members, in their order, each of which carries the heartbeat. -/
structure Delivers (secret : String) (h : Heartbeat) (targets : List Member)
    (sent : List Parcel) : Prop where
  keys : sent.map Parcel.key = targets.map Member.key
  carries : ∀ p ∈ sent, ∃ batch, Carries ⟨secret, .forward h batch⟩ p.bytes

namespace Delivers

variable {secret : String} {h : Heartbeat}

theorem nil : Delivers secret h [] [] := ⟨rfl, by simp⟩

theorem append {first second : List Member} {sent more : List Parcel}
    (hfirst : Delivers secret h first sent) (hsecond : Delivers secret h second more) :
    Delivers secret h (first ++ second) (sent ++ more) := by
  constructor
  · rw [List.map_append, List.map_append, hfirst.keys, hsecond.keys]
  · intro p hp
    rcases List.mem_append.mp hp with hp | hp
    · exact hfirst.carries p hp
    · exact hsecond.carries p hp

end Delivers

section Dispatch

variable (secret : String) (h : Heartbeat)

/-- A copy of the heartbeat for each of the members. -/
def copies (targets : List Member) : List Parcel :=
  targets.map fun m ↦ ⟨m.key, (forwardPacket secret h).encode⟩

/-- A replica of the packet of a batch for each member of its group. -/
def replicas (key : BatchKey) (group : List Member) : List Parcel :=
  group.mapIdx fun i m ↦ ⟨m.key, stampReplica i (batchPacket secret h key).encode⟩

/-- The replicas for some groups, each under the next key of a ring. -/
def groupReplicas : List (List Member) → KeyRing → List Parcel
  | [], _ => []
  | group :: rest, ring =>
    replicas secret h ring.advance.key group ++ groupReplicas rest ring.advance

theorem copies_delivers (targets : List Member) :
    Delivers secret h targets (copies secret h targets) := by
  constructor
  · rw [copies, List.map_map]
    rfl
  · intro p hp
    obtain ⟨m, -, rfl⟩ := List.mem_map.mp hp
    exact ⟨none, carries_encode (forwardPacket secret h)⟩

theorem replicas_delivers (key : BatchKey) (group : List Member) :
    Delivers secret h group (replicas secret h key group) := by
  constructor
  · unfold replicas
    exact map_mapIdx (g := Parcel.key) (k := Member.key) (fun _ _ ↦ rfl) group
  · intro p hp
    obtain ⟨i, hi, rfl⟩ := List.mem_mapIdx.mp hp
    exact ⟨some key, carries_stampReplica (batchPacket secret h key) i⟩

theorem groupReplicas_delivers (pieces : List (List Member)) (ring : KeyRing) :
    Delivers secret h pieces.flatten (groupReplicas secret h pieces ring) := by
  induction pieces generalizing ring with
  | nil => exact .nil
  | cons group rest ih => exact (replicas_delivers secret h _ group).append (ih ring.advance)

theorem sendEach_eq (targets : List Member) (e : Egress) :
    sendEach Egress.link (forwardPacket secret h).encode targets e =
      e.put (copies secret h targets) := by
  induction targets generalizing e with
  | nil => simp [sendEach, Egress.put, copies]
  | cons m rest ih =>
    have hparcels := e.offload.parcels_of_no_batch (p := forwardPacket secret h) rfl m.addr m.port
    rw [sendEach, List.foldl_cons]
    refine (ih _).trans ?_
    unfold Egress.link
    dsimp only
    rw [hparcels]
    simp [Egress.put, copies, Member.key]

/-- The packet of a batch that has just been registered. -/
theorem parcels_eq_replicas {o : Offload} {ring : KeyRing} {group : List Member}
    (hbatch : o.batch? ring.key = some (group.map Member.target)) (addr : String)
    (port : UInt16) :
    o.parcels ⟨addr, port, (batchPacket secret h ring.key).encode⟩ =
      replicas secret h ring.key group := by
  have hreplicas : o.replicas? (batchPacket secret h ring.key).encode =
      some (group.map Member.target) := by
    rw [Offload.replicas?, peekBatch_batchPacket]
    exact hbatch
  unfold Offload.parcels
  rw [hreplicas]
  dsimp only
  refine List.mapIdx_eq_iff.mpr fun i ↦ ?_
  rw [replicas, List.getElem?_mapIdx, List.getElem?_map, Option.map_map]
  rfl

/-- Assumes: no group is empty or longer than the program can hold. No registration is refused. -/
theorem dispatchGroups_eq {pieces : List (List Member)}
    (hpieces : ∀ group ∈ pieces, group ≠ [] ∧ group.length ≤ Offload.capacity) (ring : KeyRing)
    (e : Egress) :
    ∃ report ring' o, dispatchGroups Egress.link secret h pieces ring e =
      (.ok report, ring', ⟨o, e.parcels ++ groupReplicas secret h pieces ring⟩) := by
  induction pieces generalizing ring e with
  | nil => exact ⟨⟨0, 0⟩, ring, e.offload, by simp [dispatchGroups, groupReplicas]⟩
  | cons group rest ih =>
    obtain ⟨hgroup, hlength⟩ := hpieces group List.mem_cons_self
    obtain ⟨first, others, rfl⟩ := List.exists_cons_of_ne_nil hgroup
    have hfits : ((first :: others).map Member.target).length ≤ Offload.capacity := by
      rwa [List.length_map]
    obtain ⟨o, hregister, hbatch⟩ := e.offload.register_eq_ok ring.advance.key hfits
    have hlink : Egress.link.register ring.advance.key ((first :: others).map Member.target) e =
        (.ok (), { e with offload := o }) := by
      simp only [Egress.link, hregister]
    have hsend : sendBatch Egress.link secret h ring.advance.key (first :: others)
        { e with offload := o } =
          ⟨o, e.parcels ++ replicas secret h ring.advance.key (first :: others)⟩ :=
      congrArg (fun sent ↦ (⟨o, e.parcels ++ sent⟩ : Egress))
        (parcels_eq_replicas secret h hbatch first.addr first.port)
    obtain ⟨report, ring', o', hrest⟩ := ih
      (fun piece hpiece ↦ hpieces piece (List.mem_cons_of_mem _ hpiece)) ring.advance
      ⟨o, e.parcels ++ replicas secret h ring.advance.key (first :: others)⟩
    refine ⟨⟨report.batches + 1, report.targets + (first :: others).length⟩, ring', o', ?_⟩
    rw [dispatchGroups]
    dsimp only
    rw [hlink]
    dsimp only
    rw [hsend, hrest, List.append_assoc]
    rfl

end Dispatch

/-- Whom a broadcast goes to, and the marks it then carries. -/
def choice (settings : Settings) (membership : Membership) (moment : Moment) (h : Heartbeat) :
    List Member × Infected :=
  selectTargets membership.self (membership.look moment).2 settings.amount.toNat h.infected

/-- The heartbeat as a broadcast sends it on. -/
def onward (settings : Settings) (membership : Membership) (moment : Moment) (h : Heartbeat) :
    Heartbeat :=
  { h with infected := (choice settings membership moment h).2 }

/-- What a broadcast puts on the network. -/
def Spreads (settings : Settings) (membership : Membership) (moment : Moment) (h : Heartbeat)
    (sent : List Parcel) : Prop :=
  Delivers settings.secret (onward settings membership moment h)
    (choice settings membership moment h).1 sent

/-- What spreading a heartbeat to some members puts on the network. -/
def Node.outgoing (node : Node) (h : Heartbeat) (targets : List Member) : List Parcel :=
  match node.batching with
  | none => copies node.settings.secret h targets
  | some ring => groupReplicas node.settings.secret h (groups targets) ring

theorem Node.outgoing_delivers (node : Node) (h : Heartbeat) (targets : List Member) :
    Delivers node.settings.secret h targets (node.outgoing h targets) := by
  unfold outgoing
  split
  · exact copies_delivers _ h targets
  next ring hring =>
    have hdelivers := groupReplicas_delivers node.settings.secret h (groups targets) ring
    rwa [flatten_groups] at hdelivers

theorem Node.spread_eq (node : Node) (h : Heartbeat) (targets : List Member) (e : Egress) :
    ∃ sends node' o, node.spread Egress.link h targets e =
      (.ok ⟨targets.length, sends⟩, node', ⟨o, e.parcels ++ node.outgoing h targets⟩) := by
  unfold spread outgoing
  cases node.batching with
  | none =>
    refine ⟨targets.length, node, e.offload, ?_⟩
    dsimp only
    rw [sendEach_eq]
    rfl
  | some ring =>
    have hpieces : ∀ group ∈ groups targets, group ≠ [] ∧ group.length ≤ Offload.capacity := by
      intro group hgroup
      obtain ⟨hne, hlength⟩ := mem_groups hgroup
      exact ⟨hne, Nat.le_trans hlength (by decide)⟩
    obtain ⟨report, ring', o, hdispatch⟩ :=
      dispatchGroups_eq node.settings.secret h hpieces ring e
    refine ⟨report.batches, { node with batching := some ring' }, o, ?_⟩
    dsimp only
    rw [dispatch, hdispatch]
    rfl

/-- A broadcast looks around, chooses, and spreads what it has chosen. -/
theorem Node.broadcast_eq {ω : Type} (link : Link ω) (moment : Moment) (node : Node)
    (h : Heartbeat) (w : ω) :
    node.broadcast link moment h w =
      match (choice node.settings node.membership moment h).1 with
      | [] => (.ok ⟨0, 0⟩, { node with membership := (node.membership.look moment).1 }, w)
      | first :: rest =>
        Node.spread link { node with membership := (node.membership.look moment).1 }
          (onward node.settings node.membership moment h) (first :: rest) w := by
  unfold onward
  cases hchoice : choice node.settings node.membership moment h with
  | mk targets infected =>
    have hselect : selectTargets (node.membership.look moment).1.self
        (node.membership.look moment).2 node.settings.amount.toNat h.infected =
          (targets, infected) :=
      hchoice
    unfold Node.broadcast
    simp only [hselect]
    cases targets <;> rfl

/-- A broadcast goes to all that it has chosen, and says so. -/
theorem Node.broadcast_outgoing (moment : Moment) (node : Node) (h : Heartbeat) (e : Egress) :
    ∃ sends node' o, node.broadcast Egress.link moment h e =
      (.ok ⟨(choice node.settings node.membership moment h).1.length, sends⟩, node',
        ⟨o, e.parcels ++ node.outgoing (onward node.settings node.membership moment h)
          (choice node.settings node.membership moment h).1⟩) := by
  rw [Node.broadcast_eq]
  cases (choice node.settings node.membership moment h).1 with
  | nil =>
    have hnone : node.outgoing (onward node.settings node.membership moment h) [] = [] := by
      unfold outgoing
      split <;> rfl
    refine ⟨0, { node with membership := (node.membership.look moment).1 }, e.offload, ?_⟩
    dsimp only
    rw [hnone, List.append_nil]
    rfl
  | cons first rest =>
    exact Node.spread_eq { node with membership := (node.membership.look moment).1 }
      (onward node.settings node.membership moment h) (first :: rest) e

theorem Node.broadcast_spreads (moment : Moment) (node : Node) (h : Heartbeat) (e : Egress) :
    ∃ report node' o sent, node.broadcast Egress.link moment h e =
        (.ok report, node', ⟨o, e.parcels ++ sent⟩) ∧
      Spreads node.settings node.membership moment h sent := by
  obtain ⟨sends, node', o, hbroadcast⟩ := node.broadcast_outgoing moment h e
  exact ⟨_, node', o, _, hbroadcast, node.outgoing_delivers _ _⟩

/-! ### What a broadcast guarantees -/

namespace Spreads

variable {settings : Settings} {membership : Membership} {moment : Moment} {h : Heartbeat}
  {sent : List Parcel}

theorem length_eq (hs : Spreads settings membership moment h sent) :
    sent.length = (choice settings membership moment h).1.length := by
  rw [← List.length_map (f := Parcel.key), hs.keys, List.length_map]

theorem length_le (hs : Spreads settings membership moment h sent) :
    sent.length ≤ settings.amount.toNat := by
  rw [hs.length_eq]
  exact length_selectTargets_le _ _ _

theorem nodup (hs : Spreads settings membership moment h sent) : (sent.map Parcel.key).Nodup := by
  rw [hs.keys]
  exact nodup_keys_selectTargets _ _ _

/-- A target is a live member whose key is not marked yet. -/
theorem target_of_mem (hs : Spreads settings membership moment h sent) {key : String}
    (hkey : key ∈ sent.map Parcel.key) :
    (∃ m ∈ (membership.look moment).2, m.key = key) ∧ h.infected.containsKey key = false := by
  rw [hs.keys] at hkey
  obtain ⟨m, hm, rfl⟩ := List.mem_map.mp hkey
  exact ⟨⟨m, (selectTargets_sublist _ _ _).subset hm, rfl⟩,
    (passesOver_eq_false.mp (passesOver_of_mem_selectTargets hm)).2⟩

theorem containsKey_onward (hs : Spreads settings membership moment h sent) (key : String) :
    (onward settings membership moment h).infected.containsKey key = true ↔
      h.infected.containsKey key = true ∨ key ∈ sent.map Parcel.key := by
  rw [hs.keys]
  exact containsKey_selectTargets _ _ _ _

/-- With targets to spare, every live member but the node itself is marked. -/
theorem containsKey_of_length_lt (hs : Spreads settings membership moment h sent)
    (hlength : sent.length < settings.amount.toNat) {m : Member}
    (hm : m ∈ (membership.look moment).2) (hself : m.key ≠ membership.self.key) :
    (onward settings membership moment h).infected.containsKey m.key = true := by
  rw [hs.length_eq] at hlength
  refine Gossip.containsKey_of_length_lt hlength hm fun hpeer ↦ hself ?_
  rw [Member.key, hpeer.1, hpeer.2, Member.key]

/-- A wave that still knows someone to go to goes on. -/
theorem ne_nil (hs : Spreads settings membership moment h sent)
    (hamount : 0 < settings.amount.toNat) {m : Member} (hm : m ∈ (membership.look moment).2)
    (hself : m.key ≠ membership.self.key) (hmarked : h.infected.containsKey m.key = false) :
    sent ≠ [] := by
  rintro rfl
  have hreached := hs.containsKey_of_length_lt hamount hm hself
  rw [hs.containsKey_onward, hmarked] at hreached
  simp at hreached

end Spreads

end Gossip
