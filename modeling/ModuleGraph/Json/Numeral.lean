import ModuleGraph.Decimal.Text

/-!
JSON numbers as they are spelled, and the counts and doubles they stand for. A double is read from its leading
digits alone and by one rounded multiplication or division, so it may differ in its last place from the double
nearest to the number that is written.
-/

namespace ModuleGraph

/-- A number as it is spelled: its sign, the digits before and after the point, and the power of ten, if one is
written. -/
structure Numeral where
  negative : Bool
  whole : List Char
  fraction : List Char
  exponent : Option Int

namespace Numeral

def exponentValue : List Char → Int
  | '-' :: ds => -(Decimal.ofDigits ds : Int)
  | '+' :: ds => Decimal.ofDigits ds
  | ds => Decimal.ofDigits ds

def ofSpelling (spelling : List Char) : Numeral :=
  let negative := spelling.head? == some '-'
  let unsigned := if negative then spelling.tail else spelling
  let (whole, rest) := unsigned.span Char.isDigit
  let (fraction, rest) := match rest with
    | '.' :: rest => rest.span Char.isDigit
    | rest => ([], rest)
  { negative, whole, fraction
    exponent := match rest with
      | [] => none
      | _ :: rest => some (exponentValue rest) }

def isWhole (n : Numeral) : Bool :=
  n.fraction.isEmpty && n.exponent.isNone

/-- The bound of the numbers that digits are collected in. -/
def collectBound : Nat := Nat.pow 2 64

/-- Puts digits at the end of a number up to the first one with which it would reach the bound; also returns
the digits that are left. -/
def collect (n : Nat) : List Char → Nat × List Char
  | [] => (n, [])
  | d :: ds =>
    let next := 10 * n + Decimal.digitValue d
    if next < collectBound then collect next ds else (n, d :: ds)

/-- The leading digits of a numeral as a decimal. Digits of the whole part that are left keep their places
empty; a digit of the fraction that still fits takes the first of these places. -/
def leading (n : Numeral) : Decimal :=
  let (digits, wholeLeft) := collect 0 n.whole
  let (digits, fractionLeft) := collect digits n.fraction
  ⟨digits, n.exponent.getD 0 + wholeLeft.length + fractionLeft.length - n.fraction.length⟩

def maxPower : Nat := 308

/-- A double times a power of ten, unless it is too large. A power below the range of doubles is divided by in
steps. -/
def scale? (x : Float) (e : Int) : Option Float :=
  if e.natAbs ≤ maxPower then
    let power := Float.ofScientific 1 false e.natAbs
    if e < 0 then some (x / power)
    else if (x * power).isInf then none
    else some (x * power)
  else if x == 0.0 then some x
  else if 0 ≤ e then none
  else scale? (x / Float.ofScientific 1 false maxPower) (e + maxPower)
termination_by e.natAbs
decreasing_by simp only [maxPower] at *; omega

/-- The double that a numeral stands for, if it is finite. -/
def toFloat? (n : Numeral) : Option Float := do
  let x ← scale? (Float.ofNat n.leading.digits) n.leading.exponent
  return if n.negative then -x else x

/-- The count that a numeral spells: whole, without a sign, and below `2 ^ 64`. -/
def toCount? (n : Numeral) : Option Nat :=
  let count := Decimal.ofDigits n.whole
  if n.isWhole ∧ !n.negative ∧ count < Nat.pow 2 64 then some count else none

end Numeral

end ModuleGraph
