import Gossip.Hex
import Gossip.Json.Reader

/-!
Passing over a value that nobody asked for. Its syntax is checked byte by byte with an explicit
stack of open brackets, so nesting has no limit; its strings need good escapes but neither
paired surrogates nor UTF-8, and its numbers have no range. A number cut short by the end of
the text is malformed; every other value that is cut short ended too early.
-/

set_option autoImplicit false
set_option relaxedAutoImplicit false

namespace Gossip.Json

/-- An open bracket. -/
inductive Bracket where
  | list
  | object
  deriving DecidableEq, Repr

/-- What the skipper waits for. A string knows whether it is a key. -/
inductive Skim where
  | value
  | firstItem
  | firstKey
  | key
  | colon
  | after
  | word (rest : Bytes)
  | text (isKey : Bool)
  | escape (isKey : Bool)
  | hex (isKey : Bool) (left : Nat) (valid : Bool)
  | minus
  | zero
  | whole
  | point
  | fraction
  | exponent
  | exponentSign
  | exponentDigits
  deriving DecidableEq, Repr

/-- What one byte leads to: further on, to the end of the value with this byte or just in
front of it, or to a fault. -/
inductive Move where
  | go (stack : List Bracket) (next : Skim)
  | done
  | before
  | fail

namespace Skim

/-- A value has ended with the last byte. -/
def closed (stack : List Bracket) : Move :=
  match stack with
  | [] => .done
  | _ :: _ => .go stack .after

/-- A byte behind a complete value. -/
def afterValue (stack : List Bracket) (b : UInt8) : Move :=
  match stack with
  | [] => .before
  | bracket :: outer =>
    if isBlank b then .go stack .after
    else
      match bracket with
      | .list =>
        if b = commaByte then .go stack .value
        else if b = closeBracket then closed outer else .fail
      | .object =>
        if b = commaByte then .go stack .key
        else if b = closeBrace then closed outer else .fail

/-- A byte where a value is due. -/
def startValue (stack : List Bracket) (b : UInt8) : Move :=
  if isBlank b then .go stack .value
  else if b = openBracket then .go (.list :: stack) .firstItem
  else if b = openBrace then .go (.object :: stack) .firstKey
  else if b = quoteByte then .go stack (.text false)
  else if b = 0x6E then .go stack (.word nullTail)
  else if b = 0x74 then .go stack (.word trueTail)
  else if b = 0x66 then .go stack (.word falseTail)
  else if b = minusByte then .go stack .minus
  else if b = zeroByte then .go stack .zero
  else if isDigit b then .go stack .whole
  else .fail

/-- A byte where the digits in front of the point have begun. -/
def startDigits (stack : List Bracket) (b : UInt8) : Move :=
  if b = zeroByte then .go stack .zero
  else if isDigit b then .go stack .whole
  else .fail

/-- A byte behind digits that may be followed by a point or an exponent. -/
def afterWhole (stack : List Bracket) (b : UInt8) : Move :=
  if b = 0x2E then .go stack .point
  else if b = 0x65 ∨ b = 0x45 then .go stack .exponent
  else afterValue stack b

def isShortEscape (b : UInt8) : Bool :=
  b == quoteByte || b == backslashByte || b == 0x2F || b == 0x62 || b == 0x66 || b == 0x6E ||
    b == 0x72 || b == 0x74

/-- What the next byte leads to. -/
def step (stack : List Bracket) (skim : Skim) (b : UInt8) : Move :=
  match skim with
  | .value => startValue stack b
  | .firstItem =>
    if isBlank b then .go stack .firstItem
    else if b = closeBracket then closed stack.tail
    else startValue stack b
  | .firstKey =>
    if isBlank b then .go stack .firstKey
    else if b = closeBrace then closed stack.tail
    else if b = quoteByte then .go stack (.text true) else .fail
  | .key =>
    if isBlank b then .go stack .key
    else if b = quoteByte then .go stack (.text true) else .fail
  | .colon =>
    if isBlank b then .go stack .colon
    else if b = colonByte then .go stack .value else .fail
  | .after => afterValue stack b
  | .word [] => .fail
  | .word [c] => if b = c then closed stack else .fail
  | .word (c :: rest) => if b = c then .go stack (.word rest) else .fail
  | .text isKey =>
    if b = quoteByte then (if isKey then .go stack .colon else closed stack)
    else if b = backslashByte then .go stack (.escape isKey)
    else if b < 0x20 then .fail
    else .go stack (.text isKey)
  | .escape isKey =>
    if b = 0x75 then .go stack (.hex isKey 4 true)
    else if isShortEscape b then .go stack (.text isKey) else .fail
  | .hex isKey left valid =>
    -- a bad digit is only reported behind the fourth, so that a text that ends there is cut short
    let valid := valid && (Hex.digit? b).isSome
    if 1 < left then .go stack (.hex isKey (left - 1) valid)
    else if valid then .go stack (.text isKey) else .fail
  | .minus => startDigits stack b
  | .zero => if isDigit b then .fail else afterWhole stack b
  | .whole => if isDigit b then .go stack .whole else afterWhole stack b
  | .point => if isDigit b then .go stack .fraction else .fail
  | .fraction =>
    if isDigit b then .go stack .fraction
    else if b = 0x65 ∨ b = 0x45 then .go stack .exponent
    else afterValue stack b
  | .exponent =>
    if b = 0x2B ∨ b = minusByte then .go stack .exponentSign
    else if isDigit b then .go stack .exponentDigits else .fail
  | .exponentSign => if isDigit b then .go stack .exponentDigits else .fail
  | .exponentDigits => if isDigit b then .go stack .exponentDigits else afterValue stack b

/-- The end of the text: a complete number outside all brackets is a value. -/
def atEnd (stack : List Bracket) (skim : Skim) : Except Fault Unit :=
  match skim with
  | .minus | .point | .exponent | .exponentSign => .error .malformed
  | .zero | .whole | .fraction | .exponentDigits =>
    match stack with
    | [] => .ok ()
    | _ :: _ => .error .early
  | _ => .error .early

/-- Reads bytes until the value has ended. -/
def run (stack : List Bracket) (skim : Skim) : Bytes → Except Fault Bytes
  | [] => (atEnd stack skim).map fun _ ↦ []
  | b :: s =>
    match step stack skim b with
    | .go stack skim => run stack skim s
    | .done => .ok s
    | .before => .ok (b :: s)
    | .fail => .error .malformed

end Skim

/-- The bytes behind the next value, whatever it is. -/
def skipValue (s : Bytes) : Except Fault Bytes :=
  Skim.run [] .value s

end Gossip.Json
