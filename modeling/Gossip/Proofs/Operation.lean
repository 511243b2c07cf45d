import Gossip.Proofs.Handling

/-!
Runs of a node. A node publishes, beats, handles inbound units, stores members by hand and lists
its live members, in any order, each time with a reading of the clock and an order in which its
members are listed. Its settings stay what they are.
-/

set_option autoImplicit false
set_option relaxedAutoImplicit false

namespace Gossip

/-- What a node is told to do. -/
inductive Operation where
  | publish (moment : Moment) (data : Bytes)
  | beat (moment : Moment)
  | handle (clock : Option Moment) (unit : Bytes)
  | set (member : Member) (now : Instant)
  | nodes (moment : Moment)

/-- What comes back from an operation. -/
inductive Reply where
  | published (result : Except Error Metadata)
  | done
  | handled (through : Bool)
  | stored (isNew : Bool)
  | listed (live : List Member)

namespace Node

variable {ω : Type} (link : Link ω)

/-- One operation of a node next to a link. -/
def perform (node : Node) (operation : Operation) (w : ω) : Reply × Node × ω :=
  match operation with
  | .publish moment data =>
    let (result, node, w) := node.publish link moment data w
    (.published result, node, w)
  | .beat moment =>
    let (node, w) := node.beat link moment w
    (.done, node, w)
  | .handle clock unit =>
    let (through, node, w) := node.tryHandle link clock unit w
    (.handled through, node, w)
  | .set member now =>
    let (node, isNew) := node.set member now
    (.stored isNew, node, w)
  | .nodes moment =>
    let (node, live) := node.nodes moment
    (.listed live, node, w)

/-- Operations one after the other, with all that comes back from them. -/
def performAll : List Operation → Node → ω → List Reply × Node × ω
  | [], node, w => ([], node, w)
  | operation :: rest, node, w =>
    let (reply, node, w) := node.perform link operation w
    let (replies, node, w) := performAll rest node w
    (reply :: replies, node, w)

variable (node : Node)

/-- A node goes on from where it is after some operations. -/
theorem performAll_append_snd (operations more : List Operation) (w : ω) :
    (performAll link (operations ++ more) node w).2 =
      (performAll link more (performAll link operations node w).2.1
        (performAll link operations node w).2.2).2 := by
  induction operations generalizing node w with
  | nil => rfl
  | cons operation rest ih => exact ih _ _

/-! ### The settings -/

theorem settings_initiate (moment : Moment) (w : ω) :
    (node.initiate link moment w).2.1.settings = node.settings := by
  unfold initiate
  dsimp only
  split <;> rfl

theorem settings_receive (moment : Moment) (message : Message) (w : ω) :
    (node.receive link moment message w).1.settings = node.settings := by
  cases hwave : message.wave? with
  | some h => exact (node.sameStores_receive_of_wave link moment hwave w).settings
  | none => exact (node.sameStores_receive_of_swap link moment hwave w).settings

theorem settings_receiveUntimed (message : Message) (w : ω) :
    (node.receiveUntimed link message w).2.1.settings = node.settings := by
  cases message with
  | heartbeat h | forward h _ => exact (node.sameStores_takeUpdate link h w).settings
  | swapRequest swap | swapResponse swap =>
    exact (node.sameStores_compareSwap link swap _ w).settings

theorem settings_tryHandle (clock : Option Moment) (unit : Bytes) (w : ω) :
    (node.tryHandle link clock unit w).2.1.settings = node.settings := by
  cases hread : node.read? unit with
  | none => cases clock <;> simp only [tryHandle, handle, hread]
  | some message =>
    cases clock with
    | some moment =>
      simp only [tryHandle, handle, hread]
      exact node.settings_receive link moment message w
    | none =>
      simp only [tryHandle, hread]
      exact node.settings_receiveUntimed link message w

theorem settings_perform (operation : Operation) (w : ω) :
    (node.perform link operation w).2.1.settings = node.settings := by
  cases operation with
  | publish moment data => exact (sameStores_broadcast link _ moment _ _).settings
  | beat moment =>
    have hbroadcast := sameStores_broadcast link (node.touch moment.now) moment
      (.alive (node.touch moment.now).self) w
    exact (settings_initiate link _ moment _).trans hbroadcast.settings
  | handle clock unit => exact node.settings_tryHandle link clock unit w
  | set member now => rfl
  | nodes moment => rfl

theorem settings_performAll (operations : List Operation) (w : ω) :
    (performAll link operations node w).2.1.settings = node.settings := by
  induction operations generalizing node w with
  | nil => rfl
  | cons operation rest ih => exact (ih _ _).trans (node.settings_perform link operation w)

/-- A node finds in a unit what its payload reads as under the node's secret. -/
theorem read?_of_payload {node : Node} {unit payload : Bytes} {message : Message}
    (hpayload : node.payload unit = .ok payload)
    (hdecode : Packet.decode payload = .ok ⟨node.settings.secret, message⟩) :
    node.read? unit = some message := by
  unfold read?
  rw [hpayload]
  dsimp only
  rw [hdecode]
  exact if_pos rfl

/-- What a node finds in a unit depends on its settings alone. -/
theorem read?_congr {node other : Node} (h : node.settings = other.settings) (unit : Bytes) :
    node.read? unit = other.read? unit := by
  unfold read? payload
  rw [h]

end Node

end Gossip
