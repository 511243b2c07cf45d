import Gossip.Member
import Gossip.Packet.Offsets

/-!
What a node reaches outside itself: it hands packets to the network, registers the targets of a
batch with the offload program, and tells that program which metadata version is current. A
link says what each of these does to the world, and whether it failed.
-/

set_option autoImplicit false
set_option relaxedAutoImplicit false

namespace Gossip

/-- A packet on its way to an address. -/
structure Send where
  addr : String
  port : UInt16
  bytes : Bytes
  deriving DecidableEq

def Send.key (s : Send) : String := peerKey s.addr s.port

/-- What an outside action does to the world. -/
abbrev Action (ω : Type) := ω → Except Error Unit × ω

/-- Succeeds and leaves the world as it is. -/
def Action.skip {ω : Type} : Action ω := fun w ↦ (.ok (), w)

/-- The three things a node can ask of what is outside it. -/
structure Link (ω : Type) where
  send : Send → Action ω
  register : BatchKey → List Target → Action ω
  pin : Int64 → Action ω

end Gossip
