import ModuleGraph.Scalar
import Mathlib.Algebra.Order.Field.Rat
import Mathlib.Algebra.BigOperators.Group.List.Basic

namespace ModuleGraph

/-- Exact numbers. -/
instance : Scalar ℚ where
  ofNat n := n
  abs x := |x|
  less a b := decide (a < b)
  atMost a b := decide (a ≤ b)
  larger := max

namespace Scalar

@[simp] theorem rat_zero : (zero : ℚ) = 0 :=
  Nat.cast_zero

@[simp] theorem rat_sum (xs : List ℚ) : sum xs = xs.sum := by
  rw [List.sum_eq_foldl, sum, rat_zero]

theorem rat_order (a b : ℚ) : order a b = compare a b := by
  rcases lt_trichotomy a b with h | h | h
  · simp [order, less, compare_lt_iff_lt.mpr h, h]
  · simp [order, less, h]
  · simp [order, less, compare_gt_iff_gt.mpr h, h, not_lt_of_gt h]

end Scalar

end ModuleGraph
