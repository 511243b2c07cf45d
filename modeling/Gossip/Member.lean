import Gossip.Json.Record

/-!
The identity of a cluster member. Members compare by their full value; their address and port
alone tell which peer they are, and spell the key under which the peer is known to a wave.
-/

set_option autoImplicit false
set_option relaxedAutoImplicit false

namespace Gossip

/-- The key of a peer: its address, a colon and its port in decimal. -/
def peerKey (addr : String) (port : UInt16) : String :=
  addr ++ ":" ++ String.ofList (Nat.toDigits 10 port.toNat)

/-- A member of the cluster, as it tells others about itself. -/
structure Member where
  addr : String := ""
  port : UInt16 := 0
  mac : String := ""
  name : String := ""
  privateData : String := ""
  linkName : String := ""
  deriving DecidableEq, Repr, Inhabited

namespace Member

def key (m : Member) : String := peerKey m.addr m.port

/-- Two values of one peer agree on address and port. -/
def SamePeer (m other : Member) : Prop := m.addr = other.addr ∧ m.port = other.port

instance (m other : Member) : Decidable (m.SamePeer other) :=
  inferInstanceAs (Decidable (_ ∧ _))

/-- How a member is shown to people. -/
def display (m : Member) : String :=
  if m.name = "" then m.key else m.name ++ "@" ++ m.key

/-- The address stored for a member that announced none. -/
def unspecifiedAddr : String := "0.0.0.0"

/-- The member as it is stored. -/
def withAddr (m : Member) : Member :=
  if m.addr = "" then { m with addr := unspecifiedAddr } else m

def write (m : Member) : Bytes :=
  Json.writeObject
    [Json.writeMember "Addr" (Json.writeText m.addr),
      Json.writeMember "Port" (Json.writeNat m.port.toNat),
      Json.writeMember "Mac" (Json.writeText m.mac),
      Json.writeMember "Name" (Json.writeText m.name),
      Json.writeMember "PrivateData" (Json.writeText m.privateData),
      Json.writeMember "LinkName" (Json.writeText m.linkName)]

def slots : List (Json.Slot Member) :=
  [⟨"Addr", fun m ↦ Json.text.map fun s ↦ { m with addr := s }⟩,
    ⟨"Port", fun m ↦ Json.unsigned16.map fun n ↦ { m with port := n }⟩,
    ⟨"Mac", fun m ↦ Json.text.map fun s ↦ { m with mac := s }⟩,
    ⟨"Name", fun m ↦ Json.text.map fun s ↦ { m with name := s }⟩,
    ⟨"PrivateData", fun m ↦ Json.text.map fun s ↦ { m with privateData := s }⟩,
    ⟨"LinkName", fun m ↦ Json.text.map fun s ↦ { m with linkName := s }⟩]

def reader : Json.Reader Member := Json.record slots {}

end Member

/-- What the offload program needs to know of a destination. -/
structure Target where
  addr : String
  port : UInt16
  mac : String
  deriving DecidableEq, Repr

def Member.target (m : Member) : Target := ⟨m.addr, m.port, m.mac⟩

def Target.key (t : Target) : String := peerKey t.addr t.port

end Gossip
