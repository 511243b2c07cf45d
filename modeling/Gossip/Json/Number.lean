import Gossip.Json.Reader

/-!
JSON numbers. An integer that fits 64 bits is kept as it is. Every other number is a fraction
to this format, of which only the range matters: one that no double can hold is no number at
all. The range is settled by the significand, cut at 64 bits and rounded to a double, times
the double nearest to the power of ten.
-/

set_option autoImplicit false
set_option relaxedAutoImplicit false

namespace Gossip.Json

/-- A number as far as this format tells numbers apart. -/
inductive Number where
  | whole (negative : Bool) (magnitude : Nat)
  | fraction
  deriving DecidableEq, Repr

def digitValue (b : UInt8) : Nat := b.toNat - 48

/-- The first run of digits, and what stands behind it. -/
def digits (s : Bytes) : List Nat × Bytes :=
  ((s.takeWhile isDigit).map digitValue, s.dropWhile isDigit)

/-- One digit at least, where a text that ends there ended too early. -/
def someDigits (s : Bytes) : Except Fault (List Nat × Bytes) :=
  match s with
  | [] => .error .early
  | b :: _ => if isDigit b then .ok (digits s) else .error .malformed

/-- The digits in front of the point: a zero stands alone. -/
def wholeDigits (s : Bytes) : Except Fault (List Nat × Bytes) :=
  match s with
  | [] => .error .early
  | b :: rest =>
    if b = zeroByte then
      match rest with
      | [] => .ok ([0], [])
      | d :: _ => if isDigit d then .error .malformed else .ok ([0], rest)
    else if isDigit b then .ok (digits s)
    else .error .malformed

/-- A significand below 2^64 times a power of ten; `cut` tells that digits were left out. -/
structure Scaled where
  significand : Nat
  exponent : Int
  cut : Bool

def Scaled.zero : Scaled := ⟨0, 0, false⟩

/-- A digit in front of the point is kept while it fits, and only counted from then on. -/
def Scaled.pushWhole (x : Scaled) (d : Nat) : Scaled :=
  if x.cut ∨ UInt64.size ≤ x.significand * 10 + d then ⟨x.significand, x.exponent + 1, true⟩
  else ⟨x.significand * 10 + d, x.exponent, false⟩

/-- Digits behind the point are kept up to the first one that does not fit. -/
def Scaled.pushFraction (x : Scaled) : List Nat → Scaled
  | [] => x
  | d :: ds =>
    if UInt64.size ≤ x.significand * 10 + d then x
    else Scaled.pushFraction ⟨x.significand * 10 + d, x.exponent - 1, x.cut⟩ ds

/-- The nearest integer of at most 53 significant bits, a tie going to the even one. -/
def roundBits (n : Nat) : Nat :=
  let shift := n.log2 + 1 - 53
  let unit := 1 <<< shift
  let low := n / unit
  let twice := 2 * (n % unit)
  let up := unit < twice ∨ (unit = twice ∧ low % 2 = 1)
  if up then (low + 1) * unit else low * unit

/-- Above this bound a product of doubles rounds to infinity. -/
def infinityBound : Nat := (1 <<< 1024) - (1 <<< 970)

/-- Whether no double can hold the number. Past 308 the power of ten alone is too large. -/
def Scaled.tooLarge (x : Scaled) : Bool :=
  x.significand != 0 && 0 ≤ x.exponent &&
    (308 < x.exponent ||
      infinityBound ≤ roundBits x.significand * roundBits (Nat.pow 10 x.exponent.toNat))

/-- What follows the digits: a fraction, an exponent, both or neither. The flag tells whether
there was any. -/
def fractionPart (x : Scaled) (s : Bytes) : Except Fault (Scaled × Bool × Bytes) :=
  match s with
  | [] => .ok (x, false, [])
  | b :: rest =>
    if b = 0x2E then
      match someDigits rest with
      | .error fault => .error fault
      | .ok (ds, rest) => .ok (x.pushFraction ds, true, rest)
    else .ok (x, false, s)

/-- The exponent behind a number, if there is one. -/
def exponentPart (x : Scaled) (s : Bytes) : Except Fault (Scaled × Bool × Bytes) :=
  match s with
  | [] => .ok (x, false, [])
  | b :: rest =>
    if b = 0x65 ∨ b = 0x45 then
      let (negative, rest) :=
        match rest with
        | [] => (false, [])
        | c :: tail => if c = 0x2B then (false, tail) else if c = minusByte then (true, tail)
          else (false, c :: tail)
      match someDigits rest with
      | .error fault => .error fault
      | .ok (ds, rest) =>
        let size : Int := (ds.foldl (fun n d ↦ n * 10 + d) 0 : Nat)
        .ok (⟨x.significand, if negative then x.exponent - size else x.exponent + size, x.cut⟩,
          true, rest)
    else .ok (x, false, s)

/-- A negative integer is kept from -1 down to -2^63, a positive one below 2^64. -/
def Number.ofWhole (negative : Bool) (n : Nat) : Number :=
  if negative then
    if n = 0 ∨ Int64.size / 2 < n then .fraction else .whole true n
  else .whole false n

/-- A number without its sign. -/
def unsignedNumber (negative : Bool) (s : Bytes) : Except Fault (Number × Bytes) :=
  match wholeDigits s with
  | .error fault => .error fault
  | .ok (ds, rest) =>
    match fractionPart (ds.foldl Scaled.pushWhole .zero) rest with
    | .error fault => .error fault
    | .ok (x, pointed, rest) =>
      match exponentPart x rest with
      | .error fault => .error fault
      | .ok (x, powered, rest) =>
        if pointed || powered || x.cut then
          if x.tooLarge then .error .malformed else .ok (.fraction, rest)
        else .ok (Number.ofWhole negative x.significand, rest)

/-- A number whose first byte is a minus or a digit. -/
def number : Reader Number
  | [] => .error .early
  | b :: s => if b = minusByte then unsignedNumber true s else unsignedNumber false (b :: s)

/-- The decimal digits of a natural number. -/
def writeNat (n : Nat) : Bytes :=
  (Nat.toDigits 10 n).map fun c ↦ .ofNat c.toNat

def writeInt (n : Int) : Bytes :=
  if n < 0 then minusByte :: writeNat n.natAbs else writeNat n.natAbs

end Gossip.Json
