import Gossip.Infected
import Gossip.Metadata

/-!
The messages nodes exchange. A heartbeat carries a wave: who it is about, which peers it has
reached, and possibly freshly published metadata. A forwarded heartbeat may name the batch its
replicas go to. A swap carries one side's metadata, so that the other side can compare. Each
message travels in a packet, under the secret of its cluster.
-/

set_option autoImplicit false
set_option relaxedAutoImplicit false

namespace Gossip

/-- The key of a batch; zero means that there is no batch. -/
structure BatchKey where
  value : UInt16
  ne_zero : value ≠ 0
  deriving DecidableEq

namespace BatchKey

def ofWord? (n : UInt16) : Option BatchKey :=
  if h : n ≠ 0 then some ⟨n, h⟩ else none

/-- The word that stands for a key or for none. -/
def toWord : Option BatchKey → UInt16
  | none => 0
  | some key => key.value

end BatchKey

/-- A wave: who it is about, whom it has reached, and the metadata it carries, which counts only if
the wave is an update. -/
structure Heartbeat where
  node : Member
  infected : Infected
  metadata : Metadata
  isUpdate : Bool
  deriving DecidableEq, Inhabited

namespace Heartbeat

/-- A sign of life, with its own sender already infected. -/
def alive (m : Member) : Heartbeat := ⟨m, .singleton m, {}, false⟩

/-- A sign of life that announces metadata. -/
def announcing (m : Member) (metadata : Metadata) : Heartbeat :=
  { alive m with metadata, isUpdate := true }

end Heartbeat

/-- One side of a comparison. -/
structure Swap where
  node : Member
  metadata : Metadata
  deriving DecidableEq, Inhabited

/-- What a packet says. -/
inductive Message where
  | heartbeat (heartbeat : Heartbeat)
  | forward (heartbeat : Heartbeat) (batch : Option BatchKey)
  | swapRequest (swap : Swap)
  | swapResponse (swap : Swap)
  deriving DecidableEq, Inhabited

namespace Message

/-- The tag of a message on the wire. -/
def tag : Message → UInt8
  | .heartbeat _ => 0
  | .forward _ _ => 1
  | .swapRequest _ => 2
  | .swapResponse _ => 3

/-- The member a message comes from, or is about. -/
def sender : Message → Member
  | .heartbeat h => h.node
  | .forward h _ => h.node
  | .swapRequest s => s.node
  | .swapResponse s => s.node

def metadata : Message → Metadata
  | .heartbeat h => h.metadata
  | .forward h _ => h.metadata
  | .swapRequest s => s.metadata
  | .swapResponse s => s.metadata

end Message

/-- A message under the secret of its cluster. -/
structure Packet where
  secret : String
  message : Message
  deriving DecidableEq, Inhabited

end Gossip
