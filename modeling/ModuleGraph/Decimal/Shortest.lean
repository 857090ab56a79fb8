namespace ModuleGraph

/-- The number `digits * 10 ^ exponent`. -/
structure Decimal where
  digits : Nat
  exponent : Int
  deriving DecidableEq, Repr

/-- What a double is, apart from its sign. A finite one is `significand * 2 ^ exponent`. -/
inductive Magnitude where
  | zero
  | finite (significand : Nat) (exponent : Int)
  | infinite
  | nan
  deriving DecidableEq, Repr

/-- A double read off its bits. -/
structure Double where
  negative : Bool
  magnitude : Magnitude
  deriving DecidableEq, Repr

namespace Double

def minExponent : Int := -1074

/-- The number of bits of a significand below its leading one. -/
def fractionBits : Nat := 52

def ofBits (bits : Nat) : Double :=
  let fraction : Nat := bits % Nat.pow 2 fractionBits
  let biased : Nat := bits / Nat.pow 2 fractionBits % Nat.pow 2 11
  { negative := bits / Nat.pow 2 63 % 2 = 1
    magnitude :=
      if biased = 2047 then if fraction = 0 then .infinite else .nan
      else if biased = 0 then if fraction = 0 then .zero else .finite fraction minExponent
      else .finite (Nat.pow 2 fractionBits + fraction) (minExponent + biased - 1) }

def ofFloat (x : Float) : Double :=
  ofBits x.toBits.toNat

end Double

namespace Decimal

/-- The reals that round to `significand * 2 ^ exponent`, in quarters of the last place: they lie between
`low` and `high`, both included when the significand is even. Below a power of two the gap is half as wide. -/
structure Rounding where
  significand : Nat
  exponent : Int

namespace Rounding

def low (r : Rounding) : Nat :=
  if r.significand = Nat.pow 2 Double.fractionBits ∧ r.exponent > Double.minExponent then
    4 * r.significand - 1
  else 4 * r.significand - 2

def high (r : Rounding) : Nat :=
  4 * r.significand + 2

/-- The scale of quarters of the last place on the grid of multiples of `10 ^ e`. -/
def quarterScale (r : Rounding) (e : Int) : Nat :=
  Nat.pow 2 (r.exponent - 2).toNat * Nat.pow 10 (-e).toNat

/-- The scale of one step of the grid of multiples of `10 ^ e`. -/
def stepScale (r : Rounding) (e : Int) : Nat :=
  Nat.pow 2 (2 - r.exponent).toNat * Nat.pow 10 e.toNat

/-- Whether `c * 10 ^ e` rounds to the number. -/
def contains (r : Rounding) (e : Int) (c : Nat) : Bool :=
  let point := c * r.stepScale e
  let low := r.low * r.quarterScale e
  let high := r.high * r.quarterScale e
  if r.significand % 2 = 0 then low ≤ point && point ≤ high else low < point && point < high

/-- The multiple of `10 ^ e` at or next below the number. -/
def floorOn (r : Rounding) (e : Int) : Nat :=
  4 * r.significand * r.quarterScale e / r.stepScale e

/-- Of the multiples of `10 ^ e` next to the number, one that rounds to it: the nearer of two, and the even
one when both are as near. -/
def onGrid? (r : Rounding) (e : Int) : Option Nat :=
  let c := r.floorOn e
  let twice := 8 * r.significand * r.quarterScale e
  let middle := (2 * c + 1) * r.stepScale e
  match r.contains e c, r.contains e (c + 1) with
  | false, false => none
  | true, false => some c
  | false, true => some (c + 1)
  | true, true =>
    if twice < middle then some c
    else if middle < twice then some (c + 1)
    else if c % 2 = 0 then some c else some (c + 1)

/-- How many tenfold steps lift the number to one or more. -/
def liftSteps (r : Rounding) : (fuel : Nat) → (steps : Nat) → Nat
  | 0, steps => steps
  | fuel + 1, steps =>
    if r.stepScale 0 ≤ 4 * r.significand * r.quarterScale (-steps) then steps
    else liftSteps r fuel (steps + 1)

/-- The number of digits before the decimal point; zero or less when zeros follow the point. -/
def pointPosition (r : Rounding) : Int :=
  let whole := r.floorOn 0
  if whole = 0 then 1 - liftSteps r 330 0 else (Nat.toDigits 10 whole).length

end Rounding

def stripZeros : (fuel : Nat) → Decimal → Decimal
  | 0, d => d
  | fuel + 1, d =>
    if d.digits % 10 = 0 then stripZeros fuel ⟨d.digits / 10, d.exponent + 1⟩ else d

/-- The shortest decimal that rounds to `significand * 2 ^ exponent`. Seventeen digits always do. -/
def shortest (significand : Nat) (exponent : Int) : Decimal :=
  let r : Rounding := ⟨significand, exponent⟩
  let position := r.pointPosition
  let found := (List.range 17).findSome? fun n =>
    let e := position - (n + 1 : Nat)
    (r.onGrid? e).map fun c => (⟨c, e⟩ : Decimal)
  match found with
  | some d => stripZeros 20 d
  | none => ⟨r.floorOn (position - 17), position - 17⟩

end Decimal

end ModuleGraph
