import Gossip.Base64
import Gossip.Json.Record
import Gossip.Time

/-!
The metadata a cluster shares: a payload and the version it was published under. A value gives
way to one of a strictly greater version and to no other.
-/

set_option autoImplicit false
set_option relaxedAutoImplicit false

namespace Gossip

/-- A payload with its size as announced and its version. -/
structure Metadata where
  size : UInt64 := 0
  version : Int64 := 0
  data : Bytes := []
  deriving DecidableEq, Repr, Inhabited

namespace Metadata

/-- A payload under a given version; the size is the length of the payload. -/
def ofData (data : Bytes) (version : Int64) : Metadata :=
  ⟨.ofNat data.length, version, data⟩

/-- A payload published at a reading of the clock. -/
def publishedAt (data : Bytes) (now : Instant) : Metadata := ofData data now.stamp

/-- Whether a value is of a strictly greater version. -/
def Newer (m than : Metadata) : Prop := than.version < m.version

instance (m than : Metadata) : Decidable (m.Newer than) :=
  inferInstanceAs (Decidable (_ < _))

/-- Keeps the candidate if it is newer, and tells whether it was. -/
def adopt (current candidate : Metadata) : Metadata × Bool :=
  if candidate.Newer current then (candidate, true) else (current, false)

def write (m : Metadata) : Bytes :=
  Json.writeObject
    [Json.writeMember "Size" (Json.writeNat m.size.toNat),
      Json.writeMember "Update" (Json.writeInt m.version.toInt),
      Json.writeMember "Data" (Json.writeText (Base64.encode m.data))]

/-- A payload as text; a text that is not the form of any payload is a mismatch. -/
def payload : Json.Reader Bytes := fun s ↦
  match Json.text s with
  | .error fault => .error fault
  | .ok (text, rest) =>
    match Base64.decode? text with
    | some data => .ok (data, rest)
    | none => .error .mismatched

def slots : List (Json.Slot Metadata) :=
  [⟨"Size", fun m ↦ Json.unsigned64.map fun n ↦ { m with size := n }⟩,
    ⟨"Update", fun m ↦ Json.signed64.map fun n ↦ { m with version := n }⟩,
    ⟨"Data", fun m ↦ (Json.nullable [] payload).map fun data ↦ { m with data := data }⟩]

def reader : Json.Reader Metadata := Json.record slots {}

end Metadata

end Gossip
