import ModuleGraph.Proofs.RankingOrder
import Mathlib.Data.Prod.Lex

namespace ModuleGraph.Scalar

open Float.Model Float.Model.UnpackedFloat

/-- The place of a number among all numbers: by its kind, then by its exponent and its mantissa, which count downward
below zero. -/
def place : UnpackedFloat → ℤ ×ₗ ℤ ×ₗ ℤ
  | .infinity .negative => toLex (-2, toLex (0, 0))
  | .finite .negative m e _ => toLex (-1, toLex (-e, -m))
  | .finite .positive m e _ => toLex (1, toLex (e, m))
  | .infinity .positive => toLex (2, toLex (0, 0))
  | _ => toLex (0, toLex (0, 0))

theorem lt_iff_place {a b : UnpackedFloat} (ha : a ≠ .notANumber) (hb : b ≠ .notANumber) :
    a.lt b = true ↔ place a < place b := by
  have hsigns : compare Sign.negative Sign.positive = .lt := rfl
  -- Numbers of different kinds are told apart by the first entry of their places, others by the other two.
  rcases a with ⟨_ | _⟩ | _ | ⟨_ | _⟩ | ⟨_ | _, m, e, hm⟩ <;>
    rcases b with ⟨_ | _⟩ | _ | ⟨_ | _⟩ | ⟨_ | _, m', e', hm'⟩ <;>
    first
    | exact absurd rfl ha
    | exact absurd rfl hb
    | clear ha hb
      dsimp only [UnpackedFloat.lt, UnpackedFloat.compare, place]
      simp [hsigns, Prod.Lex.toLex_lt_toLex, Ordering.then_eq_lt, Ordering.then_eq_gt, compare_lt_iff_lt,
        compare_gt_iff_gt]

abbrev Number : Type :=
  { x : Float // x.isNaN = false }

theorem Number.unpack_ne (x : Number) : x.val.toModel.unpack ≠ .notANumber := by
  intro h
  have hnan : x.val.toModel.unpack.isNaN = false := x.property
  rw [h] at hnan
  cases hnan

theorem less_iff_place (x y : Number) :
    less x.val y.val = true ↔ place x.val.toModel.unpack < place y.val.toModel.unpack := by
  have hmodel : x.val < y.val ↔ x.val.toModel < y.val.toModel := decide_eq_true_iff
  rw [← lt_iff_place x.unpack_ne y.unpack_ne]
  exact decide_eq_true_iff.trans hmodel

theorem order_eq_compare_place (x y : Number) :
    order x.val y.val = compare (place x.val.toModel.unpack) (place y.val.toModel.unpack) := by
  simp only [order, less_iff_place]
  rcases lt_trichotomy (place x.val.toModel.unpack) (place y.val.toModel.unpack) with h | h | h
  · rw [if_pos h, compare_lt_iff_lt.mpr h]
  · rw [h, if_neg (lt_irrefl _), if_neg (lt_irrefl _), compare_eq_iff_eq.mpr rfl]
  · rw [if_neg (not_lt_of_gt h), if_pos h, compare_gt_iff_gt.mpr h]

/-- The order of numbers is a total preorder. -/
instance : Std.TransCmp fun x y : Number => order x.val y.val := by
  simp only [order_eq_compare_place]
  exact transCmp_on compare fun x : Number => place x.val.toModel.unpack

end ModuleGraph.Scalar
