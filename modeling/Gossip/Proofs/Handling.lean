import Gossip.Proofs.Egress
import Gossip.Proofs.Membership

/-!
What handling a unit does to a node, and what leaves the node meanwhile. A wave stores its sender
and is spread; a request to compare is answered at most once, and an answer never; a unit that
cannot be read does nothing. The settings stay what they are.
-/

set_option autoImplicit false
set_option relaxedAutoImplicit false

namespace Gossip

/-- The heartbeat of a message that belongs to a wave. -/
def Message.wave? : Message → Option Heartbeat
  | .heartbeat h => some h
  | .forward h _ => some h
  | .swapRequest _ => none
  | .swapResponse _ => none

namespace Node

/-! ### What stays -/

/-- Settings and membership of a node are those of another. -/
structure SameStores (node other : Node) : Prop where
  settings : node.settings = other.settings
  membership : node.membership = other.membership

theorem SameStores.refl (node : Node) : SameStores node node := ⟨rfl, rfl⟩

section Frame

variable {ω : Type} (link : Link ω) (node : Node)

theorem sameStores_adopt (metadata : Metadata) (w : ω) :
    SameStores (node.adopt link metadata w).2.1 node := by
  unfold adopt
  split <;> exact ⟨rfl, rfl⟩

theorem sameStores_takeUpdate (h : Heartbeat) (w : ω) :
    SameStores (node.takeUpdate link h w).1 node := by
  unfold takeUpdate
  split
  · exact node.sameStores_adopt link h.metadata w
  · exact .refl node

theorem sameStores_compareSwap (swap : Swap) (isRequest : Bool) (w : ω) :
    SameStores (node.compareSwap link swap isRequest w).2.1 node := by
  unfold compareSwap
  split
  · exact node.sameStores_adopt link swap.metadata w
  · split <;> exact .refl node

theorem sameStores_spread (h : Heartbeat) (targets : List Member) (w : ω) :
    SameStores (node.spread link h targets w).2.1 node := by
  unfold spread
  split <;> exact ⟨rfl, rfl⟩

variable (moment : Moment)

/-- A broadcast drops the members that are too old, and changes no other store. -/
theorem sameStores_broadcast (h : Heartbeat) (w : ω) :
    SameStores (node.broadcast link moment h w).2.1
      { node with membership := (node.membership.look moment).1 } := by
  rw [broadcast_eq]
  split
  · exact .refl _
  · exact sameStores_spread link _ _ _ w

/-- The node that has taken in a wave and is about to spread it. -/
def meeting (h : Heartbeat) (w : ω) : Node :=
  { (node.takeUpdate link h w).1 with membership := (node.membership.set h.node moment.now).1 }

theorem receiveHeartbeat_eq (h : Heartbeat) (w : ω) :
    node.receiveHeartbeat link moment h w =
      ((node.meeting link moment h w).broadcast link moment h (node.takeUpdate link h w).2).2 := by
  rw [receiveHeartbeat, meeting, ← (node.sameStores_takeUpdate link h w).membership]

theorem receive_of_wave {message : Message} {h : Heartbeat} (hwave : message.wave? = some h)
    (w : ω) : node.receive link moment message w = node.receiveHeartbeat link moment h w := by
  cases message with
  | heartbeat _ | forward _ _ =>
    cases hwave
    rfl
  | swapRequest _ | swapResponse _ => exact absurd hwave (by simp [Message.wave?])

/-- A received wave stores its sender, and drops the members that are too old. -/
theorem sameStores_receive_of_wave {message : Message} {h : Heartbeat}
    (hwave : message.wave? = some h) (w : ω) :
    SameStores (node.receive link moment message w).1 { node with
      membership := ((node.membership.set h.node moment.now).1.look moment).1 } := by
  rw [node.receive_of_wave link moment hwave, receiveHeartbeat_eq]
  have hsame := sameStores_broadcast link (node.meeting link moment h w) moment h
    (node.takeUpdate link h w).2
  exact ⟨hsame.settings.trans (node.sameStores_takeUpdate link h w).settings, hsame.membership⟩

theorem sameStores_receive_of_swap {message : Message} (hwave : message.wave? = none) (w : ω) :
    SameStores (node.receive link moment message w).1 node := by
  cases message with
  | heartbeat _ | forward _ _ => exact absurd hwave (by simp [Message.wave?])
  | swapRequest swap | swapResponse swap => exact node.sameStores_compareSwap link swap _ w

end Frame

/-! ### What leaves the node -/

section Emission

variable (node : Node)

theorem parcels_pin (version : Int64) (e : Egress) :
    (node.pin Egress.link version e).parcels = e.parcels := by
  unfold pin
  split <;> rfl

theorem parcels_adopt (metadata : Metadata) (e : Egress) :
    (node.adopt Egress.link metadata e).2.2.parcels = e.parcels := by
  unfold adopt
  split
  · exact parcels_pin _ _ e
  · rfl

theorem parcels_takeUpdate (h : Heartbeat) (e : Egress) :
    (node.takeUpdate Egress.link h e).2.parcels = e.parcels := by
  unfold takeUpdate
  split
  · exact node.parcels_adopt h.metadata e
  · rfl

/-- The answer to a request to compare, on its way to the one who asked. -/
def answer (swap : Swap) : Parcel :=
  ⟨peerKey swap.node.addr swap.node.port, node.responsePacket.encode⟩

theorem parcels_compareSwap (swap : Swap) (isRequest : Bool) (e : Egress) :
    (node.compareSwap Egress.link swap isRequest e).2.2.parcels = e.parcels ∨
      isRequest = true ∧ (node.compareSwap Egress.link swap isRequest e).2.2.parcels =
        e.parcels ++ [node.answer swap] := by
  unfold compareSwap
  split
  · exact Or.inl (node.parcels_adopt swap.metadata e)
  · split
    next hnewer =>
      have hparcels := e.offload.parcels_of_no_batch (p := node.responsePacket) rfl
        swap.node.addr swap.node.port
      exact Or.inr ⟨hnewer.2, congrArg (e.parcels ++ ·) hparcels⟩
    · exact Or.inl rfl

theorem parcels_receive_of_wave (moment : Moment) {message : Message} {h : Heartbeat}
    (hwave : message.wave? = some h) (e : Egress) :
    ∃ sent, (node.receive Egress.link moment message e).2.parcels = e.parcels ++ sent ∧
      Spreads node.settings (node.membership.set h.node moment.now).1 moment h sent := by
  obtain ⟨report, node', o, sent, hbroadcast, hspreads⟩ := broadcast_spreads moment
    (node.meeting Egress.link moment h e) h (node.takeUpdate Egress.link h e).2
  refine ⟨sent, ?_, ?_⟩
  · rw [node.receive_of_wave Egress.link moment hwave, receiveHeartbeat_eq, hbroadcast,
      parcels_takeUpdate]
  · rw [← (node.sameStores_takeUpdate Egress.link h e).settings]
    exact hspreads

theorem parcels_receive_request (moment : Moment) (swap : Swap) (e : Egress) :
    ∃ sent, (node.receive Egress.link moment (.swapRequest swap) e).2.parcels =
        e.parcels ++ sent ∧ (sent = [] ∨ sent = [node.answer swap]) := by
  rcases node.parcels_compareSwap swap true e with hnone | ⟨-, hanswer⟩
  · exact ⟨[], by rw [List.append_nil]; exact hnone, Or.inl rfl⟩
  · exact ⟨_, hanswer, Or.inr rfl⟩

theorem parcels_receive_response (moment : Moment) (swap : Swap) (e : Egress) :
    (node.receive Egress.link moment (.swapResponse swap) e).2.parcels = e.parcels := by
  rcases node.parcels_compareSwap swap false e with hnone | ⟨hrequest, -⟩
  · exact hnone
  · exact absurd hrequest (by decide)

end Emission

end Node

end Gossip
