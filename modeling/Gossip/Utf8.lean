/-!
Text as bytes. Writing gives every character its UTF-8 form; reading accepts exactly the
shortest forms of the Unicode scalar values and refuses every other byte string.
-/

set_option autoImplicit false
set_option relaxedAutoImplicit false

namespace Gossip

abbrev Bytes := List UInt8

namespace Utf8

/-- The bytes of a text. -/
def encode (text : String) : Bytes :=
  text.toList.flatMap String.utf8EncodeChar

/-- The six payload bits of a continuation byte. -/
def continuation? (b : UInt8) : Option Nat :=
  if 0x80 ≤ b.toNat ∧ b.toNat < 0xC0 then some (b.toNat - 0x80) else none

/-- The character of a code point that needs at least the form it was written in. -/
def scalar? (least code : Nat) : Option Char :=
  if h : code.isValidChar then
    if least ≤ code then some (Char.ofNatAux code h) else none
  else none

def two? (a b : UInt8) : Option Char :=
  match continuation? b with
  | some y => scalar? 0x80 ((a.toNat - 0xC0) * 64 + y)
  | none => none

def three? (a b c : UInt8) : Option Char :=
  match continuation? b, continuation? c with
  | some y, some z => scalar? 0x800 ((a.toNat - 0xE0) * 4096 + y * 64 + z)
  | _, _ => none

def four? (a b c d : UInt8) : Option Char :=
  match continuation? b, continuation? c, continuation? d with
  | some x, some y, some z => scalar? 0x10000 ((a.toNat - 0xF0) * 262144 + x * 4096 + y * 64 + z)
  | _, _, _ => none

/-- Reads the whole byte string, with the characters read so far in reverse. -/
def charsFrom (read : List Char) : Bytes → Option (List Char)
  | [] => some read.reverse
  | a :: rest =>
    if a.toNat < 0x80 then charsFrom (Char.ofNat a.toNat :: read) rest
    else if a.toNat < 0xC0 then none
    else if a.toNat < 0xE0 then
      match rest with
      | b :: rest =>
        match two? a b with
        | some char => charsFrom (char :: read) rest
        | none => none
      | _ => none
    else if a.toNat < 0xF0 then
      match rest with
      | b :: c :: rest =>
        match three? a b c with
        | some char => charsFrom (char :: read) rest
        | none => none
      | _ => none
    else if a.toNat < 0xF8 then
      match rest with
      | b :: c :: d :: rest =>
        match four? a b c d with
        | some char => charsFrom (char :: read) rest
        | none => none
      | _ => none
    else none

/-- The text whose bytes are given, if they are the bytes of one. -/
def decode? (bytes : Bytes) : Option String :=
  (charsFrom [] bytes).map String.ofList

end Utf8

end Gossip
