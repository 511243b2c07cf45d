import Gossip.Packet.Wire

/-!
What the offload program knows about packets. It does not read JSON: it takes the batch key
from three digits at a fixed offset, and stamps the replica counter at another. A frame as it
comes off the link has its headers in front of the packet; taking them away also clears the
counter, so that every replica reads like the packet that was sent.
-/

set_option autoImplicit false
set_option relaxedAutoImplicit false

namespace Gossip

/-- The offset of the replica counter. -/
def counterOffset : Nat := 18

/-- The offset of the first digit of the batch key. -/
def batchOffset : Nat := 29

/-- The bytes of the link, network and transport headers. -/
def headerSize : Nat := 42

/-- Three letters of the key's name, checked before the digits behind it are believed. -/
def spellsKey (payload : Bytes) : Bool :=
  payload[21]? = some 0x4D && payload[23]? = some 0x70 && payload[26]? = some 0x79

def threeDigits? (a b c : UInt8) : Option Nat :=
  if Json.isDigit a && Json.isDigit b && Json.isDigit c then
    some ((Json.digitValue a * 10 + Json.digitValue b) * 10 + Json.digitValue c)
  else none

/-- The batch key that the offload program finds in a payload. -/
def peekBatch (payload : Bytes) : Option BatchKey :=
  if spellsKey payload then
    match payload.drop batchOffset with
    | a :: b :: c :: _ =>
      match threeDigits? a b c with
      | some n => BatchKey.ofWord? (.ofNat n)
      | none => none
    | _ => none
  else none

/-- The counter digit of the replica at an index: they are counted from one, modulo ten. -/
def replicaDigit (index : Nat) : UInt8 := .ofNat (48 + (index + 1) % 10)

/-- Stamps a replica, if there is a digit where the counter belongs. -/
def stampReplica (index : Nat) (payload : Bytes) : Bytes :=
  match payload[counterOffset]? with
  | some b => if Json.isDigit b then payload.set counterOffset (replicaDigit index) else payload
  | none => payload

/-- A payload as the link delivers it, behind empty headers. -/
def frame (payload : Bytes) : Bytes := List.replicate headerSize 0 ++ payload

/-- The payload of a frame, with the counter cleared. -/
def stripFrame (unit : Bytes) : Except Error Bytes :=
  if unit.length ≤ headerSize then .error (.noPayload unit.length)
  else .ok ((unit.drop headerSize).set counterOffset Json.zeroByte)

end Gossip
