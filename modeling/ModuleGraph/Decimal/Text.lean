import ModuleGraph.Decimal.Shortest

namespace ModuleGraph

/-- How a decimal is laid out: positional while its point stands within the given bounds, else with an
exponent. -/
structure DecimalLayout where
  /-- The least position of the point that is still written out. -/
  firstPosition : Int
  /-- The greatest position of the point that is still written out. -/
  lastPosition : Int

namespace DecimalLayout

/-- Digits with a point after the first of them, if more follow. -/
def mantissa : List Char → List Char
  | [] => []
  | [d] => [d]
  | d :: ds => d :: '.' :: ds

def exponentText (e : Int) : List Char :=
  (if e < 0 then '-' else '+') :: Nat.toDigits 10 e.natAbs

/-- Writes a decimal. A positional one always has a digit on either side of its point. -/
def write (layout : DecimalLayout) (d : Decimal) : List Char :=
  let ds := Nat.toDigits 10 d.digits
  let point : Int := ds.length + d.exponent
  if layout.firstPosition ≤ point ∧ point ≤ layout.lastPosition then
    if point ≤ 0 then '0' :: '.' :: List.replicate (-point).toNat '0' ++ ds
    else if ds.length ≤ point then
      ds ++ List.replicate (point.toNat - ds.length) '0' ++ ['.', '0']
    else ds.take point.toNat ++ '.' :: ds.drop point.toNat
  else mantissa ds ++ 'e' :: exponentText (point - 1)

/-- Writes a double; one that is not finite has no decimal. -/
def writeFloat? (layout : DecimalLayout) (x : Float) : Option (List Char) :=
  let double := Double.ofFloat x
  let sign := if double.negative then ['-'] else []
  match double.magnitude with
  | .zero => some (sign ++ ['0', '.', '0'])
  | .finite significand exponent => some (sign ++ layout.write (.shortest significand exponent))
  | .infinite | .nan => none

end DecimalLayout

namespace Decimal

def digitValue (c : Char) : Nat :=
  c.toNat - '0'.toNat

def ofDigits (ds : List Char) : Nat :=
  ds.foldl (fun n d => 10 * n + digitValue d) 0

/-- The double nearest to a decimal. Far outside the range of doubles it is infinite or zero without any
large power being taken. -/
def toFloat (d : Decimal) : Float :=
  let point : Int := (Nat.toDigits 10 d.digits).length + d.exponent
  if d.digits = 0 ∨ point < -400 then 0.0
  else if point > 400 then 1.0 / 0.0
  else if d.exponent < 0 then Float.ofScientific d.digits true d.exponent.natAbs
  else Float.ofScientific d.digits false d.exponent.natAbs

end Decimal

end ModuleGraph
