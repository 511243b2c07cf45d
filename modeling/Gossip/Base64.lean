import Gossip.Utf8

/-!
Payloads as text: the standard alphabet of 64 characters, three bytes to four characters,
always padded. Reading is strict, so that every payload has exactly one text form: the length
is a multiple of four, padding stands only at the end, and the bits it leaves over are zero.
-/

set_option autoImplicit false
set_option relaxedAutoImplicit false

namespace Gossip.Base64

/-- The character of a six-bit value. -/
def symbol (n : Nat) : Char :=
  if n < 26 then Char.ofNat (65 + n)
  else if n < 52 then Char.ofNat (71 + n)
  else if n < 62 then Char.ofNat (n - 4)
  else if n = 62 then '+'
  else '/'

def value? (c : Char) : Option Nat :=
  let n := c.toNat
  if 65 ≤ n ∧ n ≤ 90 then some (n - 65)
  else if 97 ≤ n ∧ n ≤ 122 then some (n - 71)
  else if 48 ≤ n ∧ n ≤ 57 then some (n + 4)
  else if c = '+' then some 62
  else if c = '/' then some 63
  else none

/-- The characters of a payload, in front of the ones already written. -/
def symbols : Bytes → List Char
  | [] => []
  | [a] => [symbol (a.toNat / 4), symbol (a.toNat % 4 * 16), '=', '=']
  | [a, b] =>
    [symbol (a.toNat / 4), symbol (a.toNat % 4 * 16 + b.toNat / 16),
      symbol (b.toNat % 16 * 4), '=']
  | a :: b :: c :: rest =>
    symbol (a.toNat / 4) :: symbol (a.toNat % 4 * 16 + b.toNat / 16) ::
      symbol (b.toNat % 16 * 4 + c.toNat / 64) :: symbol (c.toNat % 64) :: symbols rest

def encode (payload : Bytes) : String :=
  String.ofList (symbols payload)

/-- One byte from the last two characters of a text: four bits are left over. -/
def one? (w x : Char) : Option Bytes :=
  match value? w, value? x with
  | some w, some x => if x % 16 = 0 then some [.ofNat (w * 4 + x / 16)] else none
  | _, _ => none

/-- Two bytes from the last three characters of a text: two bits are left over. -/
def two? (w x y : Char) : Option Bytes :=
  match value? w, value? x, value? y with
  | some w, some x, some y =>
    if y % 4 = 0 then some [.ofNat (w * 4 + x / 16), .ofNat (x % 16 * 16 + y / 4)] else none
  | _, _, _ => none

/-- Three bytes from a full group of four characters. -/
def three? (w x y z : Char) : Option (UInt8 × UInt8 × UInt8) :=
  match value? w, value? x, value? y, value? z with
  | some w, some x, some y, some z =>
    some (.ofNat (w * 4 + x / 16), .ofNat (x % 16 * 16 + y / 4), .ofNat (y % 4 * 64 + z))
  | _, _, _, _ => none

/-- Reads group by group, with the bytes read so far in reverse. -/
def bytesFrom (read : Bytes) : List Char → Option Bytes
  | [] => some read.reverse
  | w :: x :: y :: z :: rest =>
    match three? w x y z with
    | some (a, b, c) => bytesFrom (c :: b :: a :: read) rest
    | none =>
      if rest = [] ∧ z = '=' then
        ((if y = '=' then one? w x else two? w x y).map (read.reverse ++ ·))
      else none
  | _ => none

/-- The payload whose text form is given, if there is one. -/
def decode? (text : String) : Option Bytes :=
  bytesFrom [] text.toList

end Gossip.Base64
