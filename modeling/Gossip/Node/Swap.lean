import Gossip.Node

/-!
Pairwise repair of metadata. A node asks one live peer to compare: it sends what it holds. The
peer adopts it if it is newer, answers with its own if that is newer, and does nothing when the
versions agree. An answer is adopted or ignored, never answered. An adopted version is also
pinned to the offload program, where a failure to pin undoes nothing.
-/

set_option autoImplicit false
set_option relaxedAutoImplicit false

namespace Gossip

/-- What came of a comparison. -/
inductive SwapOutcome where
  | adopted
  | responded
  | ignored
  deriving DecidableEq, Repr

namespace Node

/-- What this node tells others of its metadata. -/
def swap (node : Node) : Swap := ⟨node.self, node.metadata⟩

def requestPacket (node : Node) : Packet := ⟨node.settings.secret, .swapRequest node.swap⟩

def responsePacket (node : Node) : Packet := ⟨node.settings.secret, .swapResponse node.swap⟩

/-- Tells the offload program of a version, if there is a program. -/
def pin {ω : Type} (link : Link ω) (node : Node) (version : Int64) (w : ω) : ω :=
  match node.batching with
  | none => w
  | some _ => (link.pin version w).2

/-- Stores metadata if it is newer, and tells whether it was. -/
def adopt {ω : Type} (link : Link ω) (node : Node) (metadata : Metadata) (w : ω) :
    Bool × Node × ω :=
  match node.metadata.adopt metadata with
  | (metadata, true) =>
    let node := { node with metadata }
    (true, node, node.pin link metadata.version w)
  | (_, false) => (false, node, w)

/-- Asks the first live peer, if there is one. -/
def initiate {ω : Type} (link : Link ω) (moment : Moment) (node : Node) (w : ω) :
    Except Error (Option Member) × Node × ω :=
  let (membership, live) := node.membership.look moment
  let node := { node with membership }
  match live.find? fun member ↦ ¬member.SamePeer membership.self with
  | none => (.ok none, node, w)
  | some peer =>
    let (result, w) := link.send ⟨peer.addr, peer.port, node.requestPacket.encode⟩ w
    (result.map fun _ ↦ some peer, node, w)

/-- Compares a swap with what is stored; `isRequest` tells whether it may be answered. -/
def compareSwap {ω : Type} (link : Link ω) (node : Node) (swap : Swap) (isRequest : Bool)
    (w : ω) : Except Error SwapOutcome × Node × ω :=
  if swap.metadata.Newer node.metadata then
    let (adopted, node, w) := node.adopt link swap.metadata w
    (.ok (if adopted then .adopted else .ignored), node, w)
  else if node.metadata.Newer swap.metadata ∧ isRequest then
    let (result, w) :=
      link.send ⟨swap.node.addr, swap.node.port, node.responsePacket.encode⟩ w
    (result.map fun _ ↦ .responded, node, w)
  else (.ok .ignored, node, w)

/-- Handles a swap; other messages are none of its business. -/
def onSwap {ω : Type} (link : Link ω) (node : Node) (message : Message) (w : ω) :
    Except Error SwapOutcome × Node × ω :=
  match message with
  | .swapRequest swap => node.compareSwap link swap true w
  | .swapResponse swap => node.compareSwap link swap false w
  | _ => (.ok .ignored, node, w)

end Node

end Gossip
