import Gossip.Decimal.Shortest

/-!
Loss rates: the doubles from zero to one, where zero may carry a sign. A text that is read as a
rate is taken to the nearest double and then into the range, and what is not a number counts as
no loss. A rate is written in positional notation with the fewest digits that read back.
-/

set_option autoImplicit false
set_option relaxedAutoImplicit false

namespace Gossip

/-- A rate of zero, of one, or of a double in between. -/
inductive Rate where
  | zero (negative : Bool)
  | between (x : Decimal.Double)
  | one
  deriving DecidableEq, Repr

namespace Rate

instance : Inhabited Rate := ⟨zero false⟩

/-- The rate of a decimal `n * 10 ^ e` with a sign. -/
def ofDecimal (negative : Bool) (n : Nat) (e : Int) : Rate :=
  let size : Int := (Nat.toDigits 10 n).length
  if n = 0 ∨ size + e < -330 then .zero negative
  else if 0 < size + e then if negative then .zero false else .one
  else
    let x := Decimal.nearest n (Nat.pow 10 (-e).toNat)
    if x.m = 0 then .zero negative
    else if negative then .zero false
    else
      let (num, den) := x.ratio
      if num < den then .between x else .one

def digitsOf (s : List Char) : List Nat × List Char :=
  ((s.takeWhile Char.isDigit).map fun c ↦ c.toNat - 48, s.dropWhile Char.isDigit)

def valueOf (digits : List Nat) : Nat := digits.foldl (fun n d ↦ n * 10 + d) 0

def signOf : List Char → Bool × List Char
  | '-' :: s => (true, s)
  | '+' :: s => (false, s)
  | s => (false, s)

/-- The exponent at the end of a number; none is zero. -/
def exponentOf? : List Char → Option Int
  | [] => some 0
  | c :: s =>
    if c = 'e' ∨ c = 'E' then
      let (negative, s) := signOf s
      match digitsOf s with
      | (d :: ds, []) => some (if negative then -(valueOf (d :: ds)) else valueOf (d :: ds))
      | _ => none
    else none

/-- A number behind its sign: digits around at most one point, and an exponent. -/
def ofNumber? (negative : Bool) (s : List Char) : Option Rate :=
  let (before, s) := digitsOf s
  let (behind, s) :=
    match s with
    | '.' :: s => digitsOf s
    | s => ([], s)
  if before = [] ∧ behind = [] then none
  else
    (exponentOf? s).map fun e ↦
      ofDecimal negative (valueOf (before ++ behind)) (e - behind.length)

def parse? (text : String) : Option Rate :=
  let (negative, s) := signOf text.toList
  let name := String.ofList (s.map Char.toLower)
  if name = "nan" then some (.zero false)
  else if name = "inf" ∨ name = "infinity" then some (if negative then .zero false else .one)
  else ofNumber? negative s

def display : Rate → String
  | .zero false => "0"
  | .zero true => "-0"
  | .one => "1"
  | .between x =>
    let (n, e) := Decimal.shortest x
    let digits := Nat.toDigits 10 n
    let zeros := (-e).toNat - digits.length
    String.ofList ('0' :: '.' :: (List.replicate zeros '0' ++ digits))

end Rate

end Gossip
