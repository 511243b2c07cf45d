import Gossip.Json.Number
import Gossip.Json.Text

/-!
Values without parts. A reader of one kind that meets another kind reads on just as far as it
takes to see whether that other value is well formed: a malformed one is malformed, and only a
good one is mismatched. A list or an object is told by its opening byte.
-/

set_option autoImplicit false
set_option relaxedAutoImplicit false

namespace Gossip.Json

/-- The fault of a reading that succeeds with the wrong kind is the mismatch. -/
def blame {α : Type} : Except Fault α → Fault
  | .error fault => fault
  | .ok _ => .mismatched

/-- The fault of a value that stands where another kind is due. -/
def misplaced : Bytes → Fault
  | [] => .early
  | b :: rest =>
    if b = 0x6E then blame (word nullTail rest)
    else if b = 0x74 then blame (word trueTail rest)
    else if b = 0x66 then blame (word falseTail rest)
    else if b = minusByte ∨ isDigit b then blame (number (b :: rest))
    else if b = quoteByte then blame (textBody rest)
    else if b = openBracket ∨ b = openBrace then .mismatched
    else .malformed

def Reader.map {α β : Type} (f : α → β) (reader : Reader α) : Reader β := fun s ↦
  match reader s with
  | .error fault => .error fault
  | .ok (a, rest) => .ok (f a, rest)

def text : Reader String := fun s ↦
  match skipBlank s with
  | [] => .error .early
  | b :: rest => if b = quoteByte then textBody rest else .error (misplaced (b :: rest))

def bool : Reader Bool := fun s ↦
  match skipBlank s with
  | [] => .error .early
  | b :: rest =>
    if b = 0x74 then (word trueTail rest).map (true, ·)
    else if b = 0x66 then (word falseTail rest).map (false, ·)
    else .error (misplaced (b :: rest))

/-- An integer, through a test for the ones that fit. -/
def integer {α : Type} (fit : Bool → Nat → Option α) : Reader α := fun s ↦
  match skipBlank s with
  | [] => .error .early
  | b :: rest =>
    if b = minusByte ∨ isDigit b then
      match number (b :: rest) with
      | .error fault => .error fault
      | .ok (.fraction, _) => .error .mismatched
      | .ok (.whole negative n, rest) =>
        match fit negative n with
        | some a => .ok (a, rest)
        | none => .error .mismatched
    else .error (misplaced (b :: rest))

/-- The magnitudes that are not negative and lie below a bound. -/
def fitUnsigned (bound : Nat) (negative : Bool) (n : Nat) : Option Nat :=
  if negative = false ∧ n < bound then some n else none

def unsigned8 : Reader UInt8 := (integer (fitUnsigned UInt8.size)).map UInt8.ofNat
def unsigned16 : Reader UInt16 := (integer (fitUnsigned UInt16.size)).map UInt16.ofNat
def unsigned64 : Reader UInt64 := (integer (fitUnsigned UInt64.size)).map UInt64.ofNat

/-- The integers of 64 bits with a sign. -/
def fitSigned64 (negative : Bool) (n : Nat) : Option Int64 :=
  if negative then some (Int64.ofInt (-n))
  else if n < Int64.size / 2 then some (Int64.ofInt n)
  else none

def signed64 : Reader Int64 := integer fitSigned64

/-- The value `null` stands for a default. -/
def nullable {α : Type} (default : α) (reader : Reader α) : Reader α := fun s ↦
  match skipBlank s with
  | [] => reader []
  | b :: rest => if b = 0x6E then (word nullTail rest).map (default, ·) else reader (b :: rest)

def writeBool (b : Bool) : Bytes :=
  if b then 0x74 :: trueTail else 0x66 :: falseTail

end Gossip.Json
