import ModuleGraph.Proofs.RankDistribution
import Mathlib.Algebra.BigOperators.Field
import Mathlib.Algebra.BigOperators.Fin
import Mathlib.Algebra.Order.BigOperators.Group.Finset
import Mathlib.LinearAlgebra.FiniteDimensional.Lemmas

namespace ModuleGraph.PageRank

open Scalar

variable {t : Topology ℚ} {damping : ℚ} {n : Nat}

section Distance

def distance (xs ys : List ℚ) : ℚ :=
  (List.zipWith (fun x y => |x - y|) xs ys).sum

theorem distance_ofFn (x y : Fin n → ℚ) : distance (List.ofFn x) (List.ofFn y) = ∑ v, |x v - y v| := by
  have hzip : List.zipWith (fun x y => |x - y|) (List.ofFn x) (List.ofFn y) = List.ofFn fun v => |x v - y v| := by
    apply List.ext_getElem (by simp)
    intro i _ _
    simp
  rw [distance, hzip, List.sum_ofFn]

theorem exists_eq_ofFn {xs : List ℚ} (h : xs.length = n) : ∃ x : Fin n → ℚ, xs = List.ofFn x := by
  subst h
  exact ⟨xs.get, (List.ofFn_get xs).symm⟩

theorem distance_triangle {xs ys zs : List ℚ} (hx : xs.length = n) (hy : ys.length = n) (hz : zs.length = n) :
    distance xs zs ≤ distance xs ys + distance ys zs := by
  obtain ⟨x, rfl⟩ := exists_eq_ofFn hx
  obtain ⟨y, rfl⟩ := exists_eq_ofFn hy
  obtain ⟨z, rfl⟩ := exists_eq_ofFn hz
  rw [distance_ofFn, distance_ofFn, distance_ofFn, ← Finset.sum_add_distrib]
  exact Finset.sum_le_sum fun v _ => abs_sub_le (x v) (y v) (z v)

theorem maxDelta_le_iff {xs ys : List ℚ} {bound : ℚ} :
    maxDelta xs ys ≤ bound ↔ 0 ≤ bound ∧ ∀ c ∈ List.zipWith (fun x y => |x - y|) xs ys, c ≤ bound := by
  have hfold : ∀ (cs : List ℚ) (start : ℚ),
      cs.foldl larger start ≤ bound ↔ start ≤ bound ∧ ∀ c ∈ cs, c ≤ bound := by
    intro cs
    induction cs with
    | nil => simp
    | cons c cs ih =>
      intro start
      have hlarger : larger start c ≤ bound ↔ start ≤ bound ∧ c ≤ bound := max_le_iff
      rw [List.foldl_cons, ih, hlarger, List.forall_mem_cons, and_assoc]
  have hzero : (zero : ℚ) = 0 := rat_zero
  rw [← hzero]
  exact hfold _ zero

theorem nonneg_of_mem_changes {xs ys : List ℚ} {c : ℚ} (h : c ∈ List.zipWith (fun x y => |x - y|) xs ys) :
    0 ≤ c := by
  rw [← List.map_uncurry_zip_eq_zipWith] at h
  obtain ⟨e, _, rfl⟩ := List.mem_map.mp h
  exact abs_nonneg _

theorem maxDelta_le_distance (xs ys : List ℚ) : maxDelta xs ys ≤ distance xs ys := by
  refine maxDelta_le_iff.mpr ⟨List.sum_nonneg fun _ => nonneg_of_mem_changes, ?_⟩
  exact List.single_le_sum fun _ => nonneg_of_mem_changes

theorem distance_le_mul_maxDelta {xs ys : List ℚ} (hx : xs.length = n) (hy : ys.length = n) :
    distance xs ys ≤ n * maxDelta xs ys := by
  have hle := List.sum_le_card_nsmul _ _ (maxDelta_le_iff.mp (le_refl (maxDelta xs ys))).2
  rwa [List.length_zipWith, hx, hy, min_self, nsmul_eq_mul] at hle

end Distance

section Transition

def transition (t : Topology ℚ) (damping : ℚ) (v w : Nat) : ℚ :=
  if isDangling t v then damping / t.size else flow t damping v 1 w

theorem flow_eq_mul (t : Topology ℚ) (damping : ℚ) (v : Nat) (rank : ℚ) (w : Nat) :
    flow t damping v rank w = rank * flow t damping v 1 w := by
  unfold flow
  split
  · exact (mul_zero rank).symm
  · rw [← List.sum_map_mul_left]
    refine congrArg List.sum (List.map_congr_left fun e _ => ?_)
    split
    · ring
    · exact (mul_zero rank).symm

/-- An iteration, on one rank for each node. -/
def advance (t : Topology ℚ) (damping : ℚ) (x : Fin t.size → ℚ) (w : Fin t.size) : ℚ :=
  (1 - damping) / t.size + ∑ v, x v * transition t damping v w

theorem sum_map_zipIdx_ofFn (x : Fin n → ℚ) (f : ℚ × Nat → ℚ) :
    ((List.ofFn x).zipIdx.map f).sum = ∑ v : Fin n, f (x v, v) := by
  have hzip : (List.ofFn x).zipIdx = List.ofFn fun v : Fin n => (x v, (v : Nat)) := by
    apply List.ext_getElem (by simp)
    intro i _ _
    simp
  rw [hzip, List.map_ofFn, List.sum_ofFn]
  rfl

theorem danglingRank_ofFn (x : Fin n → ℚ) :
    danglingRank t (List.ofFn x) = ∑ v : Fin n, if isDangling t v then x v else 0 := by
  have hite := List.sum_map_ite (fun r : ℚ × Nat => isDangling t r.2 = true) (·.1) (fun _ => 0) (List.ofFn x).zipIdx
  rw [sum_map_zipIdx_ofFn, List.sum_map_zero, add_zero] at hite
  rw [danglingRank, rat_sum, hite]
  simp

theorem iterate_ofFn (x : Fin t.size → ℚ) :
    iterate t damping (List.ofFn x) = List.ofFn (advance t damping x) := by
  have hentry : ∀ w : Fin t.size, baseRank t damping (List.ofFn x) +
      ((List.ofFn x).zipIdx.map fun r => flow t damping r.2 r.1 w).sum = advance t damping x w := by
    intro w
    have hterm : ∀ v : Fin t.size, x v * transition t damping v w =
        damping * (if isDangling t v then x v else 0) / t.size + flow t damping v (x v) w := by
      intro v
      rw [flow_eq_mul]
      unfold transition flow
      split <;> ring
    rw [baseRank, rat_one, rat_ofNat, danglingRank_ofFn, sum_map_zipIdx_ofFn, advance, add_assoc, Finset.mul_sum,
      Finset.sum_div, ← Finset.sum_add_distrib]
    simp only [hterm]
  rw [iterate_eq_map]
  apply List.ext_getElem (by simp)
  intro i hi hi'
  simpa using hentry ⟨i, by simpa using hi'⟩

theorem sum_transition (ht : t.Bounded) (hsize : t.size ≠ 0) (damping : ℚ) (v : Nat) :
    ∑ w : Fin t.size, transition t damping v w = damping := by
  unfold transition
  split
  case isTrue =>
    rw [Finset.sum_const, Finset.card_univ, Fintype.card_fin, nsmul_eq_mul]
    exact mul_div_cancel₀ damping (Nat.cast_ne_zero.mpr hsize)
  case isFalse hdangling =>
    have hflow := sum_flow ht damping v 1
    rw [if_neg hdangling, mul_one] at hflow
    rw [← Finset.sum_range]
    exact hflow

theorem transition_nonneg (hweights : t.NonNegative) (hdamping : 0 ≤ damping) (v w : Nat) :
    0 ≤ transition t damping v w := by
  unfold transition
  split
  · exact div_nonneg hdamping (Nat.cast_nonneg _)
  · exact flow_nonneg hweights hdamping v zero_le_one w

end Transition

section Contraction

variable (ht : t.Bounded) (hsize : t.size ≠ 0) (hweights : t.NonNegative) (hdamping : 0 ≤ damping)
include ht hsize hweights hdamping

theorem sum_abs_advance_le (x y : Fin t.size → ℚ) :
    ∑ w, |advance t damping x w - advance t damping y w| ≤ damping * ∑ v, |x v - y v| := by
  have hentry : ∀ w, |advance t damping x w - advance t damping y w| ≤
      ∑ v, |x v - y v| * transition t damping v w := by
    intro w
    calc |advance t damping x w - advance t damping y w|
        = |∑ v, (x v - y v) * transition t damping v w| := by
          rw [advance, advance, add_sub_add_left_eq_sub, ← Finset.sum_sub_distrib]
          simp only [sub_mul]
      _ ≤ ∑ v, |(x v - y v) * transition t damping v w| := Finset.abs_sum_le_sum_abs _ _
      _ = ∑ v, |x v - y v| * transition t damping v w := by
          refine Finset.sum_congr rfl fun v _ => ?_
          rw [abs_mul, abs_of_nonneg (transition_nonneg hweights hdamping v w)]
  calc ∑ w, |advance t damping x w - advance t damping y w|
      ≤ ∑ w : Fin t.size, ∑ v, |x v - y v| * transition t damping v w := Finset.sum_le_sum fun w _ => hentry w
    _ = ∑ v, |x v - y v| * ∑ w : Fin t.size, transition t damping v w := by
        rw [Finset.sum_comm]
        simp only [Finset.mul_sum]
    _ = damping * ∑ v, |x v - y v| := by
        simp only [sum_transition ht hsize]
        rw [← Finset.sum_mul, mul_comm]

theorem distance_iterate_le {xs ys : List ℚ} (hx : xs.length = t.size) (hy : ys.length = t.size) :
    distance (iterate t damping xs) (iterate t damping ys) ≤ damping * distance xs ys := by
  obtain ⟨x, rfl⟩ := exists_eq_ofFn hx
  obtain ⟨y, rfl⟩ := exists_eq_ofFn hy
  rw [iterate_ofFn, iterate_ofFn, distance_ofFn, distance_ofFn]
  exact sum_abs_advance_le ht hsize hweights hdamping x y

variable (hproper : damping < 1)
include hproper

theorem eq_of_advance_sub_eq {x y : Fin t.size → ℚ}
    (h : ∀ w, advance t damping x w - advance t damping y w = x w - y w) : x = y := by
  have hle := sum_abs_advance_le ht hsize hweights hdamping x y
  simp only [h] at hle
  have hnonneg : 0 ≤ ∑ v, |x v - y v| := Finset.sum_nonneg fun v _ => abs_nonneg _
  have hzero : ∑ v, |x v - y v| = 0 := by nlinarith
  funext v
  have hv := (Finset.sum_eq_zero_iff_of_nonneg fun v _ => abs_nonneg (x v - y v)).mp hzero v (Finset.mem_univ v)
  exact sub_eq_zero.mp (abs_eq_zero.mp hv)

/-- Some rank vector is left as it is: no vector but zero is its own image under the linear part of an iteration, so
that part can be subtracted from the identity and still reaches every vector. -/
theorem exists_advance_eq : ∃ x, advance t damping x = x := by
  let residue : (Fin t.size → ℚ) →ₗ[ℚ] (Fin t.size → ℚ) :=
    { toFun := fun x w => x w - ∑ v, x v * transition t damping v w
      map_add' := by
        intro x y
        funext w
        simp only [Pi.add_apply, add_mul, Finset.sum_add_distrib]
        ring
      map_smul' := by
        intro c x
        funext w
        simp only [Pi.smul_apply, smul_eq_mul, mul_assoc, ← Finset.mul_sum, RingHom.id_apply]
        ring }
  have hresidue : ∀ x w, residue x w = x w - advance t damping x w + (1 - damping) / t.size := by
    intro x w
    have hdef : residue x w = x w - ∑ v, x v * transition t damping v w := rfl
    rw [hdef, advance]
    ring
  have hinjective : Function.Injective residue := by
    intro x y hxy
    apply eq_of_advance_sub_eq ht hsize hweights hdamping hproper
    intro w
    have hw := congrFun hxy w
    rw [hresidue, hresidue] at hw
    linarith
  obtain ⟨x, hx⟩ := LinearMap.injective_iff_surjective.mp hinjective fun _ => (1 - damping) / t.size
  refine ⟨x, funext fun w => ?_⟩
  have hw := congrFun hx w
  rw [hresidue] at hw
  linarith

end Contraction

/-- Ranks of all nodes that an iteration leaves as they are. -/
structure IsFixed (t : Topology ℚ) (damping : ℚ) (ranks : List ℚ) : Prop where
  length_eq : ranks.length = t.size
  iterate_eq : iterate t damping ranks = ranks

theorem exists_isFixed_iff (ht : t.Bounded) (hsize : t.size ≠ 0) (hweights : t.NonNegative) (hdamping : 0 ≤ damping)
    (hproper : damping < 1) : ∃ fixed, ∀ ranks, IsFixed t damping ranks ↔ ranks = fixed := by
  obtain ⟨x, hx⟩ := exists_advance_eq ht hsize hweights hdamping hproper
  refine ⟨List.ofFn x, fun ranks => ⟨?_, ?_⟩⟩
  · rintro ⟨hlength, hfixed⟩
    obtain ⟨y, rfl⟩ := exists_eq_ofFn hlength
    rw [iterate_ofFn] at hfixed
    have hy := List.ofFn_injective hfixed
    rw [eq_of_advance_sub_eq ht hsize hweights hdamping hproper (x := y) (y := x) (by simp [hx, hy])]
  · rintro rfl
    exact ⟨List.length_ofFn, by rw [iterate_ofFn, hx]⟩

end ModuleGraph.PageRank
