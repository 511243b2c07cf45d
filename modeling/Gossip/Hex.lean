import Gossip.Utf8

/-!
Hexadecimal digits. Reading takes either case, writing gives lower case, and a byte is two
digits with the high half first.
-/

set_option autoImplicit false
set_option relaxedAutoImplicit false

namespace Gossip.Hex

/-- The value of the digit that a byte of text spells. -/
def digit? (b : UInt8) : Option Nat :=
  let n := b.toNat
  if 48 ≤ n ∧ n ≤ 57 then some (n - 48)
  else if 97 ≤ n ∧ n ≤ 102 then some (n - 87)
  else if 65 ≤ n ∧ n ≤ 70 then some (n - 55)
  else none

def four? (a b c d : UInt8) : Option Nat :=
  match digit? a, digit? b, digit? c, digit? d with
  | some w, some x, some y, some z => some (((w * 16 + x) * 16 + y) * 16 + z)
  | _, _, _, _ => none

/-- The byte of text that spells a digit. -/
def digitByte (n : Nat) : UInt8 :=
  .ofNat (if n < 10 then 48 + n else 87 + n)

def ofByte (b : UInt8) : List Char :=
  [Nat.digitChar (b.toNat / 16), Nat.digitChar (b.toNat % 16)]

def encode (bytes : Bytes) : String :=
  String.ofList (bytes.flatMap ofByte)

end Gossip.Hex
