import Gossip.Proofs.Fabric
import Gossip.Proofs.Wave.Acquaintance

/-!
Batches deliver what copies deliver. A broadcast in batches numbers its targets: the place of a
target says which key of the ring its batch has, and which of the batch's replicas it gets. On a
network that takes everything, an endpoint that gets a copy of the heartbeat from a broadcast
without batches gets a replica from one in batches, and nothing else; copy and replica differ in the
batch key and the counter, and read as the same heartbeat.
-/

set_option autoImplicit false
set_option relaxedAutoImplicit false

namespace Gossip

/-! ### Replicas by place -/

section Places

variable (secret : String) (h : Heartbeat)

/-- The key of the batch in which the target at a place is. -/
def KeyRing.keyAt (ring : KeyRing) (place : ℕ) : BatchKey :=
  (ring.steps (place / groupSize + 1)).key

/-- The replica for the target at a place. -/
def replicaAt (ring : KeyRing) (place : ℕ) (m : Member) : Parcel :=
  ⟨m.key, stampReplica (place % groupSize) (batchPacket secret h (ring.keyAt place)).encode⟩

theorem groupReplicas_groups (targets : List Member) (ring : KeyRing) :
    groupReplicas secret h (groups targets) ring = targets.mapIdx (replicaAt secret h ring) := by
  induction hlength : targets.length using Nat.strong_induction_on generalizing targets ring with
  | _ length ih =>
    by_cases hnil : targets = []
    · rw [hnil]
      rfl
    · have hpositive := List.length_pos_iff.mpr hnil
      have hsmaller : (targets.drop groupSize).length < length := by
        rw [List.length_drop, hlength]
        unfold groupSize
        omega
      have hfirst : (targets.take groupSize).mapIdx (replicaAt secret h ring) =
          replicas secret h ring.advance.key (targets.take groupSize) := by
        refine List.mapIdx_eq_mapIdx_iff.mpr fun i hi ↦ ?_
        have hplace : i < groupSize := Nat.lt_of_lt_of_le hi (List.length_take_le _ _)
        rw [replicaAt, KeyRing.keyAt, Nat.mod_eq_of_lt hplace, Nat.div_eq_of_lt hplace]
        rfl
      have hrest : (targets.drop groupSize).mapIdx
          (fun i ↦ replicaAt secret h ring (i + (targets.take groupSize).length)) =
            (targets.drop groupSize).mapIdx (replicaAt secret h ring.advance) := by
        refine List.mapIdx_eq_mapIdx_iff.mpr fun i hi ↦ ?_
        have hfull : (targets.take groupSize).length = groupSize := by
          rw [List.length_drop] at hi
          rw [List.length_take]
          omega
        rw [hfull, replicaAt, KeyRing.keyAt, Nat.add_mod_right,
          Nat.add_div_right _ (by decide)]
        rfl
      rw [groups_of_ne_nil hnil, groupReplicas, ih _ hsmaller _ ring.advance rfl, ← hrest, ← hfirst,
        ← List.mapIdx_append, List.take_append_drop]

end Places

/-! ### What an endpoint gets -/

namespace Inbox

/-- The packet that the endpoint of an inbox finds in a unit. -/
def read (box : Inbox) (unit : Bytes) : Except Error Packet :=
  (if box.frames then stripFrame unit else .ok unit).bind Packet.decode

theorem read_unitOf (box : Inbox) {p : Packet} {bytes : Bytes} (hcarries : Carries p bytes) :
    box.read (box.unitOf bytes) = .ok p := by
  obtain ⟨hraw, payload, hstrip, hframed⟩ := hcarries
  unfold read unitOf
  split
  · rw [hstrip]
    exact hframed
  · exact hraw

/-- The endpoint of an inbox gets one unit from a broadcast in copies and one from a broadcast in
batches. It reads the same heartbeat in both, without a batch and with one; and what has been sent
to it differs in the batch key and the counter alone. -/
structure GetsAlike (secret : String) (h : Heartbeat) (key : BatchKey) (counter : ℕ)
    (box copied batched : Inbox) : Prop where
  copied_eq : copied = box.push (Wire.ofPacket (forwardPacket secret h)).write
  batched_eq : batched = box.push
    { Wire.ofPacket (forwardPacket secret h) with
      batch := key.value
      count := .ofNat counter }.write
  copied_read : ∃ unit, copied.queue = box.queue ++ [unit] ∧
    box.read unit = .ok ⟨secret, .forward h none⟩
  batched_read : ∃ unit, batched.queue = box.queue ++ [unit] ∧
    box.read unit = .ok ⟨secret, .forward h (some key)⟩

theorem getsAlike_push (box : Inbox) (secret : String) (h : Heartbeat) (key : BatchKey) (i : ℕ) :
    GetsAlike secret h key ((i + 1) % 10) box (box.push (forwardPacket secret h).encode)
      (box.push (stampReplica i (batchPacket secret h key).encode)) := by
  have hstamped := stampReplica_write (Wire.tag_ofPacket_lt (batchPacket secret h key))
    (Wire.count_ofPacket_lt (batchPacket secret h key)) i
  refine ⟨rfl, ?_, ⟨_, rfl, box.read_unitOf (carries_encode (forwardPacket secret h))⟩,
    ⟨_, rfl, box.read_unitOf (carries_stampReplica (batchPacket secret h key) i)⟩⟩
  rw [Packet.encode, hstamped]
  rfl

end Inbox

/-- Two outcomes of spreading a heartbeat to some targets: an endpoint that no target has is left
alone by both, and the endpoint of a target gets alike. The key and the counter that it gets are
those of the target's place. -/
structure Fabric.SpreadAlike (f copied batched : Fabric) (secret : String) (h : Heartbeat)
    (ring : KeyRing) (targets : List Member) : Prop where
  length_copied : copied.inboxes.length = f.inboxes.length
  length_batched : batched.inboxes.length = f.inboxes.length
  untouched : ∀ i, (∀ m ∈ targets, f.routes.get? m.key ≠ some i) →
    copied.inboxes[i]? = f.inboxes[i]? ∧ batched.inboxes[i]? = f.inboxes[i]?
  reached : ∀ place m, targets[place]? = some m → ∀ i box, f.routes.get? m.key = some i →
    f.inboxes[i]? = some box → ∃ first second, copied.inboxes[i]? = some first ∧
      batched.inboxes[i]? = some second ∧ box.GetsAlike secret h (ring.keyAt place)
        ((place % groupSize + 1) % 10) first second

theorem Fabric.Ready.spreadAlike {f : Fabric} (hready : f.Ready) (secret : String) (h : Heartbeat)
    (ring : KeyRing) {targets : List Member} (hnodup : (targets.map Member.key).Nodup) :
    f.SpreadAlike (f.deliverAll (copies secret h targets))
      (f.deliverAll (targets.mapIdx (replicaAt secret h ring))) secret h ring targets := by
  have hcopies : (copies secret h targets).map Parcel.key = targets.map Member.key :=
    (copies_delivers secret h targets).keys
  have hreplicas : (targets.mapIdx (replicaAt secret h ring)).map Parcel.key =
      targets.map Member.key :=
    map_mapIdx (g := Parcel.key) (k := Member.key) (fun _ _ ↦ rfl) targets
  refine ⟨f.length_inboxes_deliverAll _, f.length_inboxes_deliverAll _, fun i hi ↦ ⟨?_, ?_⟩,
    fun place m hplace i box hroute hbox ↦ ?_⟩
  · refine inboxes_deliverAll_of_ne fun p hp ↦ ?_
    obtain ⟨m, hm, rfl⟩ := List.mem_map.mp hp
    exact hi m hm
  · refine inboxes_deliverAll_of_ne fun p hp ↦ ?_
    obtain ⟨place, hplace, rfl⟩ := List.mem_mapIdx.mp hp
    exact hi _ (List.getElem_mem hplace)
  · have hcopy : ⟨m.key, (forwardPacket secret h).encode⟩ ∈ copies secret h targets :=
      List.mem_map_of_mem (List.mem_of_getElem? hplace)
    have hreplica : replicaAt secret h ring place m ∈
        targets.mapIdx (replicaAt secret h ring) := by
      refine List.mem_of_getElem? (i := place) ?_
      rw [List.getElem?_mapIdx, hplace]
      rfl
    exact ⟨_, _, hready.inboxes_deliverAll (hcopies ▸ hnodup) hcopy hroute hbox,
      hready.inboxes_deliverAll (hreplicas ▸ hnodup) hreplica hroute hbox,
      box.getsAlike_push secret h (ring.keyAt place) (place % groupSize)⟩

/-! ### Broadcasts on the network in memory -/

/-- A node on the network in memory broadcasts to all that it chooses, and the network tries to
deliver what leaves it. -/
theorem Node.broadcast_fabric (node : Node) {attached : Bool}
    (hattached : node.batching ≠ none → attached = true) (moment : Moment) (h : Heartbeat)
    (f : Fabric) (o : Offload) :
    ∃ sends node' o', node.broadcast (Fabric.link attached) moment h (f, o) =
      (.ok ⟨(choice node.settings node.membership moment h).1.length, sends⟩, node',
        f.deliverAll (node.outgoing (onward node.settings node.membership moment h)
          (choice node.settings node.membership moment h).1), o') := by
  have hmap := broadcast_map (seesAlike_onto hattached f) moment h (⟨o, []⟩ : Egress)
  obtain ⟨sends, node', o', hbroadcast⟩ := node.broadcast_outgoing moment h ⟨o, []⟩
  rw [hbroadcast] at hmap
  exact ⟨sends, node', o', hmap⟩

/-- Assumes: a network whose routes lead to inboxes of their keys, that loses nothing, and in which
there is room. A node that broadcasts a heartbeat, in copies or in batches through a program that is
attached to its endpoint, chooses the same targets; both broadcasts succeed, and each endpoint gets
alike. -/
theorem batches_deliver_as_copies (node : Node) (ring : KeyRing) (attached : Bool)
    (o o' : Offload) (moment : Moment) (h : Heartbeat) {f : Fabric} (hready : f.Ready) :
    ∃ copied batched : Fabric,
      (∃ sends after program,
        Node.broadcast (Fabric.link attached) moment { node with batching := none } h (f, o) =
          (.ok ⟨(choice node.settings node.membership moment h).1.length, sends⟩, after, copied,
            program)) ∧
      (∃ sends after program,
        Node.broadcast (Fabric.link true) moment { node with batching := some ring } h (f, o') =
          (.ok ⟨(choice node.settings node.membership moment h).1.length, sends⟩, after, batched,
            program)) ∧
      f.SpreadAlike copied batched node.settings.secret
        (onward node.settings node.membership moment h) ring
        (choice node.settings node.membership moment h).1 := by
  have hnever : (none : Option KeyRing) ≠ none → attached = true := fun hnone ↦ absurd rfl hnone
  obtain ⟨sends, after, program, hcopied⟩ :=
    Node.broadcast_fabric { node with batching := none } hnever moment h f o
  obtain ⟨sends', after', program', hbatched⟩ := Node.broadcast_fabric
    { node with batching := some ring } (fun _ ↦ rfl) moment h f o'
  refine ⟨_, _, ⟨sends, after, program, hcopied⟩, ⟨sends', after', program', hbatched⟩, ?_⟩
  have hnodup : ((choice node.settings node.membership moment h).1.map Member.key).Nodup :=
    nodup_keys_selectTargets _ _ _
  have hspread := hready.spreadAlike node.settings.secret
    (onward node.settings node.membership moment h) ring hnodup
  rw [← groupReplicas_groups] at hspread
  exact hspread

/-- A network with endpoints for the members of the first numbers, every other one of which gets
frames; each has room for one unit. -/
def Fabric.ofNumbers (n : ℕ) : Fabric :=
  (List.range n).foldl (fun f i ↦ (f.register (Member.ofNumber i).addr (Member.ofNumber i).port 1
    (i % 2 = 1)).2) {}

theorem Fabric.ready_ofNumbers (n : ℕ) : (ofNumbers n).Ready := by
  induction n with
  | zero => exact .empty
  | succ n ih =>
    unfold ofNumbers at ih ⊢
    rw [List.range_succ, List.foldl_append]
    exact ih.register _ _ _ _

/-- The node of the first site of a mesh of three. -/
def Node.ofThree : Node := (Site.knowing 2 dawn.now 0 (List.range 3)).node

/-- One of the two others gets the bytes as they are, and one gets them in a frame. -/
theorem batches_deliver_as_copies_to_two :
    ∃ copied batched : Fabric,
      (∃ sends after program, Node.broadcast (Fabric.link false) dawn
        { Node.ofThree with batching := none } (.alive (.ofNumber 0)) (.ofNumbers 3, {}) =
          (.ok ⟨2, sends⟩, after, copied, program)) ∧
      (∃ sends after program, Node.broadcast (Fabric.link true) dawn
        { Node.ofThree with batching := some .fresh } (.alive (.ofNumber 0)) (.ofNumbers 3, {}) =
          (.ok ⟨2, sends⟩, after, batched, program)) ∧
      (Fabric.ofNumbers 3).SpreadAlike copied batched ""
        (onward Node.ofThree.settings Node.ofThree.membership dawn (.alive (.ofNumber 0))) .fresh
        [.ofNumber 1, .ofNumber 2] := by
  have htargets : (choice Node.ofThree.settings Node.ofThree.membership dawn
      (.alive (.ofNumber 0))).1 = [.ofNumber 1, .ofNumber 2] := by
    decide +kernel
  have h := batches_deliver_as_copies Node.ofThree .fresh false {} {} dawn (.alive (.ofNumber 0))
    (Fabric.ready_ofNumbers 3)
  rw [htargets] at h
  exact h

end Gossip
