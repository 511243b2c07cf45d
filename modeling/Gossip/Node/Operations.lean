import Gossip.Node.Swap
import Gossip.Node.Wave
import Gossip.Packet.Offsets

/-!
What a node does. It handles inbound units, of which it drops all that do not read as a packet
under its own secret; it beats, which is a wave about itself and a request to compare metadata;
and it publishes, which stores and pins a new version before spreading it. What goes wrong on
the outside reaches nobody but the caller of publish. While the clock cannot be read, a node
still compares metadata and takes in updates, and gets no further with a heartbeat.
-/

set_option autoImplicit false
set_option relaxedAutoImplicit false

namespace Gossip

namespace Node

/-- The packet bytes of an inbound unit. -/
def payload (node : Node) (unit : Bytes) : Except Error Bytes :=
  if node.settings.mode.receivesFrames then stripFrame unit else .ok unit

/-- The message of a unit that is meant for this node. -/
def read? (node : Node) (unit : Bytes) : Option Message :=
  match node.payload unit with
  | .error _ => none
  | .ok payload =>
    match Packet.decode payload with
    | .error _ => none
    | .ok packet => if packet.secret = node.settings.secret then some packet.message else none

/-- Takes in the metadata of a heartbeat that is an update. -/
def takeUpdate {ω : Type} (link : Link ω) (node : Node) (h : Heartbeat) (w : ω) : Node × ω :=
  if h.isUpdate then
    let (_, node, w) := node.adopt link h.metadata w
    (node, w)
  else (node, w)

/-- Takes in a heartbeat: its metadata if it is an update, its sender, and its wave. -/
def receiveHeartbeat {ω : Type} (link : Link ω) (moment : Moment) (node : Node) (h : Heartbeat)
    (w : ω) : Node × ω :=
  let (node, w) := node.takeUpdate link h w
  let node := { node with membership := (node.membership.set h.node moment.now).1 }
  let (_, node, w) := node.broadcast link moment h w
  (node, w)

/-- Handles a message under this node's secret. -/
def receive {ω : Type} (link : Link ω) (moment : Moment) (node : Node) (message : Message)
    (w : ω) : Node × ω :=
  match message with
  | .heartbeat h => node.receiveHeartbeat link moment h w
  | .forward h _ => node.receiveHeartbeat link moment h w
  | .swapRequest swap =>
    let (_, node, w) := node.compareSwap link swap true w
    (node, w)
  | .swapResponse swap =>
    let (_, node, w) := node.compareSwap link swap false w
    (node, w)

/-- Handles one inbound unit. -/
def handle {ω : Type} (link : Link ω) (moment : Moment) (node : Node) (unit : Bytes) (w : ω) :
    Node × ω :=
  match node.read? unit with
  | none => (node, w)
  | some message => node.receive link moment message w

/-- Handles a message while the clock cannot be read, and tells whether it got through: a
heartbeat fails where its sender would be stored as seen now. -/
def receiveUntimed {ω : Type} (link : Link ω) (node : Node) (message : Message) (w : ω) :
    Bool × Node × ω :=
  match message with
  | .heartbeat h => (false, node.takeUpdate link h w)
  | .forward h _ => (false, node.takeUpdate link h w)
  | .swapRequest swap => (true, (node.compareSwap link swap true w).2)
  | .swapResponse swap => (true, (node.compareSwap link swap false w).2)

/-- Handles one inbound unit, whether the clock can be read or not, and tells whether it got
through. -/
def tryHandle {ω : Type} (link : Link ω) (moment : Option Moment) (node : Node) (unit : Bytes)
    (w : ω) : Bool × Node × ω :=
  match moment, node.read? unit with
  | some moment, _ => (true, node.handle link moment unit w)
  | none, none => (true, node, w)
  | none, some message => node.receiveUntimed link message w

/-- Refreshes the node's own entry. -/
def touch (node : Node) (now : Instant) : Node :=
  { node with membership := node.membership.touch now }

/-- One heartbeat cycle. -/
def beat {ω : Type} (link : Link ω) (moment : Moment) (node : Node) (w : ω) : Node × ω :=
  let node := node.touch moment.now
  let (_, node, w) := node.broadcast link moment (.alive node.self) w
  let (_, node, w) := node.initiate link moment w
  (node, w)

/-- Stores a payload under the version of the moment, and spreads it. -/
def publish {ω : Type} (link : Link ω) (moment : Moment) (node : Node) (data : Bytes) (w : ω) :
    Except Error Metadata × Node × ω :=
  let metadata := Metadata.publishedAt data moment.now
  let node := { node.touch moment.now with metadata }
  let w := node.pin link metadata.version w
  let (result, node, w) := node.broadcast link moment (.announcing node.self metadata) w
  (result.map fun _ ↦ metadata, node, w)

/-- Stores a member by hand. -/
def set (node : Node) (member : Member) (now : Instant) : Node × Bool :=
  let (membership, isNew) := node.membership.set member now
  ({ node with membership }, isNew)

/-- All live members, this node among them if it is live. -/
def nodes (node : Node) (moment : Moment) : Node × List Member :=
  let (membership, live) := node.membership.look moment
  ({ node with membership }, live)

/-- The live members other than this node. -/
def peers (node : Node) (moment : Moment) : Node × List Member :=
  let (node, live) := node.nodes moment
  (node, node.membership.others live)

end Node

end Gossip
