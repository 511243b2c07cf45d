import Gossip.Utf8

/-!
What every reader of JSON bytes shares. A reader takes the bytes that are left and gives a
value with the bytes behind it, or the first fault from the left: the text ends too early, it
is not JSON, or it is JSON of the wrong kind.
-/

set_option autoImplicit false
set_option relaxedAutoImplicit false

namespace Gossip.Json

/-- What is wrong with a text, at the first place where something is. -/
inductive Fault where
  | early
  | malformed
  | mismatched
  deriving DecidableEq, Repr

/-- A reader takes the bytes that are left and gives its value with the bytes behind it. -/
abbrev Reader (α : Type) := Bytes → Except Fault (α × Bytes)

abbrev quoteByte : UInt8 := 0x22
abbrev backslashByte : UInt8 := 0x5C
abbrev commaByte : UInt8 := 0x2C
abbrev colonByte : UInt8 := 0x3A
abbrev openBrace : UInt8 := 0x7B
abbrev closeBrace : UInt8 := 0x7D
abbrev openBracket : UInt8 := 0x5B
abbrev closeBracket : UInt8 := 0x5D
abbrev minusByte : UInt8 := 0x2D
abbrev zeroByte : UInt8 := 0x30

/-- White space is a space, a tab, a line feed or a carriage return. -/
def isBlank (b : UInt8) : Bool :=
  b == 0x20 || b == 0x09 || b == 0x0A || b == 0x0D

def isDigit (b : UInt8) : Bool :=
  0x30 ≤ b && b ≤ 0x39

def skipBlank (s : Bytes) : Bytes :=
  s.dropWhile isBlank

/-- Reads exactly the given bytes. -/
def word : Bytes → Bytes → Except Fault Bytes
  | [], s => .ok s
  | _ :: _, [] => .error .early
  | c :: w, b :: s => if b = c then word w s else .error .malformed

/-- The letters behind the first one of `null`, `true` and `false`. -/
def nullTail : Bytes := [0x75, 0x6C, 0x6C]
def trueTail : Bytes := [0x72, 0x75, 0x65]
def falseTail : Bytes := [0x61, 0x6C, 0x73, 0x65]

/-- A whole document: one value, with nothing but white space around it. -/
def document {α : Type} (value : Reader α) (s : Bytes) : Except Fault α :=
  match value s with
  | .error fault => .error fault
  | .ok (a, rest) => if skipBlank rest = [] then .ok a else .error .malformed

end Gossip.Json
