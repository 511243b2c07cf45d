/-!
Between decimals and doubles, in exact arithmetic. A double is `m * 2 ^ q` with `m` below 2^53
and `q` at least -1074. A ratio is rounded to the nearest double, a tie going to the even one;
a double is written with the fewest digits that read back as it, and the nearest of those.
-/

set_option autoImplicit false
set_option relaxedAutoImplicit false

namespace Gossip.Decimal

/-- A double that is not negative, as a significand and a power of two. -/
structure Double where
  m : Nat
  q : Int
  deriving DecidableEq, Repr

/-- The least exponent of a double. -/
def leastExponent : Int := -1074

/-- The quotient rounded to the nearest integer, a tie going to the even one. -/
def roundDiv (num den : Nat) : Nat :=
  let low := num / den
  let twice := 2 * (num % den)
  if den < twice ∨ (den = twice ∧ low % 2 = 1) then low + 1 else low

/-- A ratio divided by a power of two. -/
def scaleRatio (num den : Nat) (q : Int) : Nat × Nat :=
  if 0 ≤ q then (num, den <<< q.toNat) else (num <<< (-q).toNat, den)

/-- The exponent at which a positive ratio has 53 bits in front of the point. -/
def exponentOf (num den : Nat) : Int :=
  let guess : Int := num.log2 - den.log2 - 52
  let (n, d) := scaleRatio num den guess
  let q := if d <<< 52 ≤ n then guess else guess - 1
  if q < leastExponent then leastExponent else q

/-- The double nearest to a positive ratio. -/
def nearest (num den : Nat) : Double :=
  let q := exponentOf num den
  let (n, d) := scaleRatio num den q
  let m := roundDiv n d
  if m = 1 <<< 53 then ⟨1 <<< 52, q + 1⟩ else ⟨m, q⟩

/-- A double as a ratio. -/
def Double.ratio (x : Double) : Nat × Nat :=
  if 0 ≤ x.q then (x.m <<< x.q.toNat, 1) else (x.m, 1 <<< (-x.q).toNat)

/-- Whether a decimal `n * 10 ^ e`, for an exponent that is not positive, reads as a double. -/
def readsAs (x : Double) (n : Nat) (e : Int) : Bool :=
  n != 0 && nearest n (Nat.pow 10 (-e).toNat) = x

/-- The exponent of the first digit of a positive ratio below ten, looked for downwards. -/
def leadingExponent (num den : Nat) : Nat → Int → Int
  | 0, e => e
  | fuel + 1, e =>
    if den ≤ num * Nat.pow 10 (-e).toNat then e else leadingExponent num den fuel (e - 1)

/-- A decimal of a given number of digits that reads as the double, if there is one: the nearer
of its two neighbours, the upper one on a tie. -/
def withDigits? (x : Double) (lead : Int) (count : Nat) : Option (Nat × Int) :=
  let e := lead - count + 1
  let (num, den) := x.ratio
  let power := Nat.pow 10 (-e).toNat
  let low := num * power / den
  let nearerUp := den ≤ 2 * (num * power % den)
  let hitLow := readsAs x low e
  let hitUp := readsAs x (low + 1) e
  if hitUp && (nearerUp || !hitLow) then some (low + 1, e)
  else if hitLow then some (low, e)
  else none

/-- A decimal without a zero at its end, where rounding up has carried to a power of ten. -/
def dropZero (d : Nat × Int) : Nat × Int :=
  if d.1 % 10 = 0 then (d.1 / 10, d.2 + 1) else d

/-- The shortest decimal of a double below one. -/
def shortest (x : Double) : Nat × Int :=
  let (num, den) := x.ratio
  let lead := leadingExponent num den 400 0
  dropZero (((List.range 17).findSome? fun i ↦ withDigits? x lead (i + 1)).getD (0, 0))

end Gossip.Decimal
