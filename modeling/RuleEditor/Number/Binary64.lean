/-!
# Binary floating-point numbers

`Binary64` holds the numbers of 53 significant bits that data files write with a point or an
exponent. A number is kept as an exact sign, significand and exponent, so that equality and order
are decided by integer arithmetic. Every value built here is in normal form: the significand is
below 2^53, the exponent is at least -1074, and it is exactly -1074 when the significand is below
2^52.
-/
namespace RuleEditor

inductive Binary64 where
  /-- The number `significand * 2 ^ exponent`, negated if `negative`. -/
  | finite (negative : Bool) (significand : Nat) (exponent : Int)
  | infinite (negative : Bool)
  | undefined
deriving DecidableEq, Repr

namespace Binary64

def zero (negative : Bool) : Binary64 := .finite negative 0 (-1074)

/-- Rounds a quotient to the nearest natural number, a half to the even neighbour. -/
def roundHalfEven (num den : Nat) : Nat :=
  let q := num / den
  let r := num % den
  if 2 * r < den then q
  else if den < 2 * r then q + 1
  else if q % 2 = 0 then q else q + 1

/-- The fraction `num / den` divided by `2 ^ e`, again as a fraction. -/
def scaled (num den : Nat) (e : Int) : Nat × Nat :=
  if e < 0 then (num * Nat.pow 2 (-e).toNat, den) else (num, den * Nat.pow 2 e.toNat)

/-- The exponent at which `num / den` has a significand of 53 bits, but never below -1074. -/
def exponentFor (num den : Nat) : Int :=
  let low : Int := (num.log2 : Int) - den.log2 - 53
  let (n, d) := scaled num den low
  let e := if n / d < Nat.pow 2 53 then low else low + 1
  if e < -1074 then -1074 else e

/-- The number nearest to `num / den`, ties to the even significand. -/
def ofFraction (negative : Bool) (num den : Nat) : Binary64 :=
  if num = 0 then zero negative
  else
    let e := exponentFor num den
    let (n, d) := scaled num den e
    let m := roundHalfEven n d
    let (m, e) := if m = Nat.pow 2 53 then (Nat.pow 2 52, e + 1) else (m, e)
    if 971 < e then .infinite negative else .finite negative m e

/-- The number nearest to `digits * 10 ^ exponent`. Magnitudes far outside the range are decided
without computing the power. -/
def ofDecimal (negative : Bool) (digits : Nat) (exponent : Int) : Binary64 :=
  if digits = 0 then zero negative
  else if 400 < exponent then .infinite negative
  else if exponent + digits.log2 + 1 < -400 then zero negative
  else if exponent < 0 then ofFraction negative digits (Nat.pow 10 (-exponent).toNat)
  else ofFraction negative (digits * Nat.pow 10 exponent.toNat) 1

def ofInt (n : Int) : Binary64 := ofFraction (decide (n < 0)) n.natAbs 1

def isZero : Binary64 → Bool
  | .finite _ m _ => m == 0
  | _ => false

/-- The magnitude of a finite number as an exact fraction. -/
def fraction (significand : Nat) (exponent : Int) : Nat × Nat :=
  if exponent < 0 then (significand, Nat.pow 2 (-exponent).toNat)
  else (significand * Nat.pow 2 exponent.toNat, 1)

/-- The integer that a number is equal to, if there is one. -/
def toInt? : Binary64 → Option Int
  | .finite negative m e =>
    let (n, d) := fraction m e
    if n % d = 0 then some (if negative then -((n / d : Nat) : Int) else ((n / d : Nat) : Int)) else none
  | _ => none

/-- Numerical equality: the two zeros are equal, and an undefined number equals nothing. -/
def same : Binary64 → Binary64 → Bool
  | .finite s m e, .finite s' m' e' => (m == 0 && m' == 0) || (s == s' && m == m' && e == e')
  | .infinite s, .infinite s' => s == s'
  | _, _ => false

example : ofDecimal false 25 (-1) = .finite false 5629499534213120 (-51) := by decide
example : toInt? (ofDecimal true 30 (-1)) = some (-3) := by decide

end Binary64

end RuleEditor
