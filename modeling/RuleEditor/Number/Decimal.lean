import RuleEditor.Number.Binary64

/-!
# Decimal text of floating-point numbers

A finite number is written with the fewest digits that read back to it, and of two such decimals
with the one nearer to it. The digits are found by trying the two neighbours of the number on ever
finer decimal grids, in exact arithmetic.
-/
namespace RuleEditor

/-- The number `digits * 10 ^ exponent`. -/
structure Decimal where
  digits : Nat
  exponent : Int
deriving DecidableEq, Repr

namespace Decimal

/-- How many decimal digits a natural number has. -/
def width (n : Nat) : Nat := (Nat.toDigits 10 n).length

/-- The least `k` with `num / den < 10 ^ k`, for a positive fraction. -/
def magnitude (num den : Nat) : Int :=
  if den ≤ num then width (num / den)
  else 1 - (width ((den - 1) / num) : Int)

/-- Of the two neighbours of a fraction on the grid of step `10 ^ step`, the one that reads back to
the same number; the nearer one if both do, the even one if they are equally near. -/
def onGrid? (significand : Nat) (exponent step : Int) : Option Decimal :=
  let (num, den) := Binary64.fraction significand exponent
  let (n, d) :=
    if step < 0 then (num * Nat.pow 10 (-step).toNat, den) else (num, den * Nat.pow 10 step.toNat)
  let low := n / d
  let reads (c : Nat) : Bool := Binary64.ofDecimal false c step == .finite false significand exponent
  match reads low, reads (low + 1) with
  | true, true =>
    let twice := 2 * (n % d)
    some ⟨if twice < d ∨ (twice = d ∧ low % 2 = 0) then low else low + 1, step⟩
  | true, false => some ⟨low, step⟩
  | false, true => some ⟨low + 1, step⟩
  | false, false => none

/-- Removes at most `n` trailing zeros from the digits. -/
def stripped : Nat → Decimal → Decimal
  | 0, x => x
  | n + 1, x => if x.digits % 10 = 0 then stripped n ⟨x.digits / 10, x.exponent + 1⟩ else x

/-- The shortest decimal that reads back to a positive number; seventeen digits always suffice. -/
def shortest (significand : Nat) (exponent : Int) : Decimal :=
  let (num, den) := Binary64.fraction significand exponent
  let k := magnitude num den
  match (List.range 17).findSome? fun (i : Nat) => onGrid? significand exponent (k - (i + 1)) with
  | some x => stripped 17 x
  | none => ⟨num, 0⟩

def zeros (n : Int) : String := String.ofList (List.replicate n.toNat '0')

/-- Lays out a positive decimal: positionally, with at least one digit on either side of the point,
when its leading digit stands for a power from 10^-4 to 10^15, and otherwise with a signed exponent
of at least two digits. -/
def layout (x : Decimal) : String :=
  let ds := toString x.digits
  let leading : Int := x.exponent + ds.length - 1
  if -4 ≤ leading ∧ leading < 16 then
    if 0 ≤ x.exponent then ds ++ zeros x.exponent ++ ".0"
    else if 0 ≤ leading then
      String.ofList (ds.toList.take (leading.toNat + 1)) ++ "." ++
        String.ofList (ds.toList.drop (leading.toNat + 1))
    else "0." ++ zeros (-leading - 1) ++ ds
  else
    let mantissa :=
      match ds.toList with
      | [] => ""
      | [c] => String.ofList [c]
      | c :: rest => String.ofList (c :: '.' :: rest)
    let size := toString leading.natAbs
    mantissa ++ (if leading < 0 then "e-" else "e+") ++ (if size.length < 2 then "0" else "") ++ size

end Decimal

namespace Binary64

/-- The text of a number, given the spellings of infinity and of an undefined number. -/
def render (infinity nan : String) : Binary64 → String
  | .undefined => nan
  | .infinite negative => (if negative then "-" else "") ++ infinity
  | .finite negative m e =>
    (if negative then "-" else "") ++ (if m = 0 then "0.0" else (Decimal.shortest m e).layout)

end Binary64

end RuleEditor
