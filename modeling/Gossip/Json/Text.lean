import Gossip.Hex
import Gossip.Json.Reader

/-!
JSON strings. Writing escapes the quote, the backslash and the control characters below a
space, and nothing else. Reading takes every escape of the format, wants surrogates in pairs,
and checks the bytes between the quotes for UTF-8 once the closing quote is found.
-/

set_option autoImplicit false
set_option relaxedAutoImplicit false

namespace Gossip.Json

/-- One character between the quotes. -/
def escape (c : Char) : Bytes :=
  if c = '"' then [backslashByte, quoteByte]
  else if c = '\\' then [backslashByte, backslashByte]
  else if c = '\x08' then [backslashByte, 0x62]
  else if c = '\x0c' then [backslashByte, 0x66]
  else if c = '\n' then [backslashByte, 0x6E]
  else if c = '\r' then [backslashByte, 0x72]
  else if c = '\t' then [backslashByte, 0x74]
  else if c.toNat < 0x20 then
    [backslashByte, 0x75, zeroByte, zeroByte, Hex.digitByte (c.toNat / 16),
      Hex.digitByte (c.toNat % 16)]
  else String.utf8EncodeChar c

/-- A text between quotes. -/
def writeText (text : String) : Bytes :=
  quoteByte :: (text.toList.flatMap escape ++ [quoteByte])

/-- The byte that a one-letter escape stands for. -/
def shortEscape? (b : UInt8) : Option UInt8 :=
  if b = quoteByte ∨ b = backslashByte ∨ b = 0x2F then some b
  else if b = 0x62 then some 0x08
  else if b = 0x66 then some 0x0C
  else if b = 0x6E then some 0x0A
  else if b = 0x72 then some 0x0D
  else if b = 0x74 then some 0x09
  else none

def isLeading (n : Nat) : Bool := 0xD800 ≤ n && n < 0xDC00

def isTrailing (n : Nat) : Bool := 0xDC00 ≤ n && n < 0xE000

/-- The bytes of a code point in reverse, in front of `read`. -/
def pushCode (n : Nat) (read : Bytes) : Bytes :=
  (String.utf8EncodeChar (Char.ofNat n)).reverse ++ read

/-- The code point that a pair of surrogates stands for. -/
def pairCode (leading trailing : Nat) : Nat :=
  0x10000 + (leading - 0xD800) * 0x400 + (trailing - 0xDC00)

/-- The bytes between the quotes, unescaped, and what stands behind the closing quote. The
bytes read so far come in reverse. -/
def unescapeFrom (read : Bytes) : Reader Bytes
  | [] => .error .early
  | b :: s =>
    if b = quoteByte then .ok (read.reverse, s)
    else if b = backslashByte then
      match s with
      | [] => .error .early
      | e :: s =>
        if e = 0x75 then
          match s with
          | p :: q :: r :: t :: s =>
            match Hex.four? p q r t with
            | none => .error .malformed
            | some n =>
              if isTrailing n then .error .malformed
              else if isLeading n then
                -- the trailing half has to follow at once, as an escape of its own
                match s with
                | [] => .error .early
                | x :: s =>
                  if x = backslashByte then
                    match s with
                    | [] => .error .early
                    | y :: s =>
                      if y = 0x75 then
                        match s with
                        | p :: q :: r :: t :: s =>
                          match Hex.four? p q r t with
                          | none => .error .malformed
                          | some m =>
                            if isTrailing m then unescapeFrom (pushCode (pairCode n m) read) s
                            else .error .malformed
                        | _ => .error .early
                      else .error .malformed
                  else .error .malformed
              else unescapeFrom (pushCode n read) s
          | _ => .error .early
        else
          match shortEscape? e with
          | some c => unescapeFrom (c :: read) s
          | none => .error .malformed
    else if b < 0x20 then .error .malformed
    else unescapeFrom (b :: read) s

/-- A string whose opening quote has been read. -/
def textBody : Reader String := fun s ↦
  match unescapeFrom [] s with
  | .error fault => .error fault
  | .ok (raw, rest) =>
    match Utf8.decode? raw with
    | some text => .ok (text, rest)
    | none => .error .malformed

end Gossip.Json
