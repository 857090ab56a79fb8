/-!
The numbers that scores are made of. Programs compute with doubles; the same definitions over an exact field
say what those computations approximate.
-/

namespace ModuleGraph

/-- A type of numbers with the operations of a score computation. -/
class Scalar (K : Type) extends Add K, Sub K, Mul K, Div K where
  /-- A count as a number. -/
  ofNat : Nat → K
  abs : K → K
  /-- Whether a number is less than another one; false when they cannot be compared. -/
  less : K → K → Bool
  /-- Whether a number is not greater than another one; false when they cannot be compared. -/
  atMost : K → K → Bool
  /-- The larger of two numbers, or the one that is a number at all. -/
  larger : K → K → K

namespace Scalar

variable {K : Type} [Scalar K]

def zero : K := ofNat 0

def one : K := ofNat 1

def sum (xs : List K) : K :=
  xs.foldl (· + ·) zero

/-- The order of two numbers, equal when they cannot be compared. -/
def order (a b : K) : Ordering :=
  if less a b then .lt else if less b a then .gt else .eq

end Scalar

/-- Doubles. Of a number and a NaN, the number counts as the larger. -/
instance : Scalar Float where
  ofNat := Float.ofNat
  abs := Float.abs
  less a b := a < b
  atMost a b := a ≤ b
  larger a b := if a.isNaN || a < b then b else a

end ModuleGraph
