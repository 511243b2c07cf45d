import Gossip.Fabric
import Gossip.Proofs.Cluster

/-!
Parcels on the network in memory. A node treats all worlds alike: where two links do the same to
two worlds, one of which is an image of the other, so does the node. What a node does next to the
network in memory is therefore what it does while its parcels are only kept, and then the network
tries to deliver the parcels, in the order in which they have left.
-/

set_option autoImplicit false
set_option relaxedAutoImplicit false

namespace Gossip

/-! ### Worlds alike -/

section Alike

variable {ω ω' : Type}

/-- A packet without a batch leaves alike in a world and in its image. -/
def Link.MapsSends (f : ω → ω') (link : Link ω) (link' : Link ω') : Prop :=
  ∀ (p : Packet) (addr : String) (port : UInt16) (w : ω), (Wire.ofPacket p).batch = 0 →
    link'.send ⟨addr, port, p.encode⟩ (f w) =
      Prod.map id f (link.send ⟨addr, port, p.encode⟩ w)

/-- All that a node asks for is done alike in a world and in its image. -/
structure Link.MapsAll (f : ω → ω') (link : Link ω) (link' : Link ω') : Prop where
  send : ∀ s w, link'.send s (f w) = Prod.map id f (link.send s w)
  register : ∀ key targets w,
    link'.register key targets (f w) = Prod.map id f (link.register key targets w)
  pin : ∀ version w, link'.pin version (f w) = Prod.map id f (link.pin version w)

/-- All that a node asks for is done alike, as far as the node asks for it: without batches it
registers and pins nothing. -/
structure Node.SeesAlike (node : Node) (f : ω → ω') (link : Link ω) (link' : Link ω') :
    Prop where
  sends : Link.MapsSends f link link'
  all : node.batching ≠ none → Link.MapsAll f link link'

variable {f : ω → ω'} {link : Link ω} {link' : Link ω'}

theorem sendEach_map (hsends : Link.MapsSends f link link') (secret : String) (h : Heartbeat)
    (targets : List Member) (w : ω) :
    sendEach link' (forwardPacket secret h).encode targets (f w) =
      f (sendEach link (forwardPacket secret h).encode targets w) := by
  unfold sendEach
  induction targets generalizing w with
  | nil => rfl
  | cons m rest ih =>
    rw [List.foldl_cons, List.foldl_cons, hsends (forwardPacket secret h) m.addr m.port w rfl]
    exact ih _

theorem dispatchGroups_map (hall : Link.MapsAll f link link') (secret : String) (h : Heartbeat)
    (pieces : List (List Member)) (ring : KeyRing) (w : ω) :
    dispatchGroups link' secret h pieces ring (f w) =
      Prod.map id (Prod.map id f) (dispatchGroups link secret h pieces ring w) := by
  induction pieces generalizing ring w with
  | nil => rfl
  | cons group rest ih =>
    unfold dispatchGroups
    dsimp only
    rw [hall.register]
    cases hregister : link.register ring.advance.key (group.map Member.target) w with
    | mk result w₁ =>
      cases result with
      | error error => rfl
      | ok u =>
        cases u
        have hsend : sendBatch link' secret h ring.advance.key group (f w₁) =
            f (sendBatch link secret h ring.advance.key group w₁) := by
          cases group with
          | nil => rfl
          | cons first others => exact congrArg Prod.snd (hall.send _ w₁)
        dsimp only [Prod.map, id]
        rw [hsend, ih]
        rfl

namespace Node

variable {node : Node}

theorem spread_map (hsees : node.SeesAlike f link link') (h : Heartbeat) (targets : List Member)
    (w : ω) :
    node.spread link' h targets (f w) =
      Prod.map id (Prod.map id f) (node.spread link h targets w) := by
  unfold spread
  cases hbatching : node.batching with
  | none =>
    dsimp only
    rw [sendEach_map hsees.sends]
    rfl
  | some ring =>
    dsimp only
    have hbatches : node.batching ≠ none := by rw [hbatching]; exact Option.some_ne_none ring
    rw [dispatch, dispatchGroups_map (hsees.all hbatches)]
    rfl

theorem broadcast_map (hsees : node.SeesAlike f link link') (moment : Moment) (h : Heartbeat)
    (w : ω) :
    node.broadcast link' moment h (f w) =
      Prod.map id (Prod.map id f) (node.broadcast link moment h w) := by
  rw [broadcast_eq, broadcast_eq]
  cases (choice node.settings node.membership moment h).1 with
  | nil => rfl
  | cons first rest =>
    have hlooked : SeesAlike { node with membership := (node.membership.look moment).1 } f link
        link' :=
      ⟨hsees.sends, hsees.all⟩
    exact spread_map hlooked _ (first :: rest) w

theorem pin_map (hsees : node.SeesAlike f link link') (version : Int64) (w : ω) :
    node.pin link' version (f w) = f (node.pin link version w) := by
  unfold pin
  cases hbatching : node.batching with
  | none => rfl
  | some ring =>
    have hall := hsees.all (by rw [hbatching]; exact Option.some_ne_none ring)
    exact congrArg Prod.snd (hall.pin version w)

theorem publish_map (hsees : node.SeesAlike f link link') (moment : Moment) (data : Bytes)
    (w : ω) :
    node.publish link' moment data (f w) =
      Prod.map id (Prod.map id f) (node.publish link moment data w) := by
  have hstored : SeesAlike { node.touch moment.now with
      metadata := .publishedAt data moment.now } f link link' :=
    ⟨hsees.sends, hsees.all⟩
  unfold publish
  dsimp only
  rw [pin_map hstored, broadcast_map hstored]
  rfl

theorem adopt_map (hsees : node.SeesAlike f link link') (metadata : Metadata) (w : ω) :
    node.adopt link' metadata (f w) =
      Prod.map id (Prod.map id f) (node.adopt link metadata w) := by
  unfold adopt
  cases node.metadata.adopt metadata with
  | mk stored isNewer =>
    cases isNewer with
    | true =>
      have hadopted : SeesAlike { node with metadata := stored } f link link' :=
        ⟨hsees.sends, hsees.all⟩
      dsimp only
      rw [pin_map hadopted]
      rfl
    | false => rfl

theorem takeUpdate_map (hsees : node.SeesAlike f link link') (h : Heartbeat) (w : ω) :
    node.takeUpdate link' h (f w) = Prod.map id f (node.takeUpdate link h w) := by
  unfold takeUpdate
  by_cases hupdate : h.isUpdate
  · rw [if_pos hupdate, if_pos hupdate, adopt_map hsees]
    rfl
  · rw [if_neg hupdate, if_neg hupdate]
    rfl

theorem compareSwap_map (hsees : node.SeesAlike f link link') (swap : Swap) (isRequest : Bool)
    (w : ω) :
    node.compareSwap link' swap isRequest (f w) =
      Prod.map id (Prod.map id f) (node.compareSwap link swap isRequest w) := by
  unfold compareSwap
  by_cases hnewer : swap.metadata.Newer node.metadata
  · rw [if_pos hnewer, if_pos hnewer, adopt_map hsees]
    rfl
  · rw [if_neg hnewer, if_neg hnewer]
    by_cases hanswer : node.metadata.Newer swap.metadata ∧ isRequest
    · rw [if_pos hanswer, if_pos hanswer, hsees.sends node.responsePacket _ _ w rfl]
      rfl
    · rw [if_neg hanswer, if_neg hanswer]
      rfl

theorem initiate_map (hsees : node.SeesAlike f link link') (moment : Moment) (w : ω) :
    node.initiate link' moment (f w) =
      Prod.map id (Prod.map id f) (node.initiate link moment w) := by
  unfold initiate
  dsimp only
  cases (node.membership.look moment).2.find?
      fun member ↦ ¬member.SamePeer (node.membership.look moment).1.self with
  | none => rfl
  | some peer =>
    have hsent := hsees.sends (requestPacket { node with
      membership := (node.membership.look moment).1 }) peer.addr peer.port w rfl
    exact congrArg (fun sent ↦ (sent.1.map fun _ ↦ some peer,
      ({ node with membership := (node.membership.look moment).1 } : Node), sent.2)) hsent

theorem batching_adopt (link : Link ω) (metadata : Metadata) (w : ω) :
    (node.adopt link metadata w).2.1.batching = node.batching := by
  unfold adopt
  split <;> rfl

theorem batching_takeUpdate (link : Link ω) (h : Heartbeat) (w : ω) :
    (node.takeUpdate link h w).1.batching = node.batching := by
  unfold takeUpdate
  split
  · exact batching_adopt link h.metadata w
  · rfl

theorem receive_map (hsees : node.SeesAlike f link link') (moment : Moment) (message : Message)
    (w : ω) :
    node.receive link' moment message (f w) =
      Prod.map id f (node.receive link moment message w) := by
  cases hwave : message.wave? with
  | some h =>
    have hmeeting : node.meeting link' moment h (f w) = node.meeting link moment h w := by
      unfold meeting
      rw [takeUpdate_map hsees]
      rfl
    have hstill : (node.meeting link moment h w).SeesAlike f link link' :=
      ⟨hsees.sends, fun hbatching ↦ hsees.all (batching_takeUpdate link h w ▸ hbatching)⟩
    rw [receive_of_wave link' node moment hwave, receive_of_wave link node moment hwave,
      receiveHeartbeat_eq, receiveHeartbeat_eq, hmeeting, takeUpdate_map hsees]
    exact congrArg Prod.snd (broadcast_map hstill moment h _)
  | none =>
    cases message with
    | heartbeat _ | forward _ _ => exact absurd hwave (by simp [Message.wave?])
    | swapRequest swap | swapResponse swap =>
      unfold receive
      dsimp only
      rw [compareSwap_map hsees]
      rfl

theorem handle_map (hsees : node.SeesAlike f link link') (moment : Moment) (unit : Bytes) (w : ω) :
    node.handle link' moment unit (f w) = Prod.map id f (node.handle link moment unit w) := by
  unfold handle
  cases node.read? unit with
  | none => rfl
  | some message => exact receive_map hsees moment message w

end Node

end Alike

/-! ### The network in memory -/

/-- The network after it has tried to deliver some parcels, one after the other. -/
def Fabric.deliverAll (f : Fabric) (parcels : List Parcel) : Fabric :=
  parcels.foldl (fun f p ↦ f.deliver p.key p.bytes) f

namespace Fabric

theorem deliverAll_append (f : Fabric) (parcels more : List Parcel) :
    f.deliverAll (parcels ++ more) = (f.deliverAll parcels).deliverAll more :=
  List.foldl_append

theorem replicate_eq (bytes : Bytes) (i : ℕ) (targets : List Target) (f : Fabric) :
    replicate bytes i targets f = f.deliverAll
      (targets.mapIdx fun j target ↦ ⟨target.key, stampReplica (i + j) bytes⟩) := by
  induction targets generalizing i f with
  | nil => rfl
  | cons target rest ih =>
    have hshift : (fun (j : ℕ) (t : Target) ↦ (⟨t.key, stampReplica (i + 1 + j) bytes⟩ : Parcel)) =
        fun j t ↦ ⟨t.key, stampReplica (i + (j + 1)) bytes⟩ := by
      funext j t
      rw [Nat.add_assoc, Nat.add_comm 1 j]
    rw [replicate, ih, hshift, List.mapIdx_cons]
    rfl

/-- An endpoint with the program attached sends out what the program makes of a packet. -/
theorem send_attached (f : Fabric) (o : Offload) (s : Send) :
    f.send (some o) s = f.deliverAll (o.parcels s) := by
  unfold send Offload.parcels
  rw [Option.bind_some]
  cases o.replicas? s.bytes with
  | none => rfl
  | some targets =>
    dsimp only
    rw [replicate_eq]
    simp only [Nat.zero_add]

/-- Whether a program is attached or not, a packet without a batch is one delivery. -/
theorem send_of_no_batch (f : Fabric) (attached : Option Offload) {p : Packet}
    (h : (Wire.ofPacket p).batch = 0) (addr : String) (port : UInt16) :
    f.send attached ⟨addr, port, p.encode⟩ = f.deliver (peerKey addr port) p.encode := by
  cases attached with
  | none => rfl
  | some o =>
    rw [send_attached, o.parcels_of_no_batch h]
    rfl

end Fabric

/-- The network, with the program, after it has tried to deliver what has left an endpoint. -/
def Egress.onto (f : Fabric) (e : Egress) : Fabric × Offload :=
  (f.deliverAll e.parcels, e.offload)

theorem Egress.mapsAll_onto (f : Fabric) :
    Link.MapsAll (Egress.onto f) Egress.link (Fabric.link true) := by
  refine ⟨fun s e ↦ ?_, fun key targets e ↦ ?_, fun version e ↦ rfl⟩
  · have hsend := (f.deliverAll e.parcels).send_attached e.offload s
    rw [← Fabric.deliverAll_append] at hsend
    exact congrArg (fun f ↦ (Except.ok (), f, e.offload)) hsend
  · show Link.register (Fabric.link true) key targets (f.deliverAll e.parcels, e.offload) = _
    unfold Fabric.link Egress.link
    dsimp only
    cases e.offload.register key targets <;> rfl

/-- A packet without a batch is the same to an endpoint without the program. -/
theorem Egress.mapsSends_onto (f : Fabric) (attached : Bool) :
    Link.MapsSends (Egress.onto f) Egress.link (Fabric.link attached) := by
  intro p addr port e hbatch
  have hparcels := e.offload.parcels_of_no_batch hbatch addr port
  have hsend : (f.deliverAll e.parcels).send (if attached then some e.offload else none)
      ⟨addr, port, p.encode⟩ =
        f.deliverAll (e.parcels ++ e.offload.parcels ⟨addr, port, p.encode⟩) := by
    rw [Fabric.send_of_no_batch _ _ hbatch, Fabric.deliverAll_append, hparcels]
    rfl
  exact congrArg (fun f ↦ (Except.ok (), f, e.offload)) hsend

theorem Node.seesAlike_onto {node : Node} {attached : Bool}
    (hattached : node.batching ≠ none → attached = true) (f : Fabric) :
    node.SeesAlike (Egress.onto f) Egress.link (Fabric.link attached) := by
  refine ⟨Egress.mapsSends_onto f attached, fun hbatching ↦ ?_⟩
  rw [hattached hbatching]
  exact Egress.mapsAll_onto f

namespace Site

variable (s : Site) {attached : Bool}

/-- A node on the network in memory, which has its program attached if it broadcasts in batches,
handles the bytes of a parcel as a site does, and the network tries to deliver what leaves it. -/
theorem handle_fabric (hattached : s.node.batching ≠ none → attached = true) (moment : Moment)
    (bytes : Bytes) (f : Fabric) :
    s.node.handle (Fabric.link attached) moment (s.unitOf bytes) (f, s.offload) =
      ((s.hand moment bytes).1.node, f.deliverAll (s.hand moment bytes).2,
        (s.hand moment bytes).1.offload) :=
  Node.handle_map (Node.seesAlike_onto hattached f) moment _ ⟨s.offload, []⟩

theorem broadcast_fabric (hattached : s.node.batching ≠ none → attached = true) (moment : Moment)
    (h : Heartbeat) (f : Fabric) :
    (s.node.broadcast (Fabric.link attached) moment h (f, s.offload)).2 =
      ((s.launch moment h).1.node, f.deliverAll (s.launch moment h).2,
        (s.launch moment h).1.offload) :=
  congrArg Prod.snd (Node.broadcast_map (Node.seesAlike_onto hattached f) moment h
    (⟨s.offload, []⟩ : Egress))

end Site

end Gossip
