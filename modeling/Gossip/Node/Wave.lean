import Gossip.Node
import Gossip.Selection

/-!
Spreading a heartbeat. A node looks at its live members, marks the next targets infected in the
heartbeat, and forwards it to them with all the marks: the same bytes to each of them, or one
packet per batch. A packet that fails to go out is only missed by its target.
-/

set_option autoImplicit false
set_option relaxedAutoImplicit false

namespace Gossip

/-- How many peers a broadcast reached for, and how many packets it took. -/
structure WaveReport where
  targets : Nat
  sends : Nat
  deriving DecidableEq, Repr

/-- The packet that spreads a heartbeat from peer to peer. -/
def forwardPacket (secret : String) (h : Heartbeat) : Packet :=
  ⟨secret, .forward h none⟩

/-- Sends the same bytes to every member of a list. -/
def sendEach {ω : Type} (link : Link ω) (bytes : Bytes) (targets : List Member) (w : ω) : ω :=
  targets.foldl (fun w target ↦ (link.send ⟨target.addr, target.port, bytes⟩ w).2) w

namespace Node

/-- Spreads a heartbeat whose targets have been chosen and marked. -/
def spread {ω : Type} (link : Link ω) (node : Node) (h : Heartbeat) (targets : List Member)
    (w : ω) : Except Error WaveReport × Node × ω :=
  match node.batching with
  | none =>
    let bytes := (forwardPacket node.settings.secret h).encode
    (.ok ⟨targets.length, targets.length⟩, node, sendEach link bytes targets w)
  | some ring =>
    let (result, ring, w) := dispatch link node.settings.secret h targets ring w
    (result.map fun report ↦ ⟨targets.length, report.batches⟩,
      { node with batching := some ring }, w)

/-- Spreads a heartbeat to the next live members that it has not reached. -/
def broadcast {ω : Type} (link : Link ω) (moment : Moment) (node : Node) (h : Heartbeat)
    (w : ω) : Except Error WaveReport × Node × ω :=
  let (membership, live) := node.membership.look moment
  let (targets, infected) :=
    selectTargets membership.self live node.settings.amount.toNat h.infected
  let node := { node with membership }
  match targets with
  | [] => (.ok ⟨0, 0⟩, node, w)
  | _ :: _ => node.spread link { h with infected } targets w

end Node

end Gossip
