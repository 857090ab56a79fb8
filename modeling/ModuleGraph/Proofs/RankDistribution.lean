import ModuleGraph.Proofs.RankRenaming
import Mathlib.Algebra.BigOperators.Group.Finset.Piecewise
import Mathlib.Algebra.BigOperators.Ring.List
import Mathlib.Algebra.Order.BigOperators.Group.List

namespace ModuleGraph

def Topology.NonNegative (t : Topology ℚ) : Prop :=
  ∀ v, ∀ e ∈ t.weightedSuccessors v, 0 ≤ e.2

theorem Topology.nonNegative_ofArcs {n : Nat} {arcs : List (Arc ℚ)} (h : ∀ a ∈ arcs, 0 ≤ a.weight) :
    (ofArcs n arcs).NonNegative := by
  intro v e he
  rw [weightedSuccessors_ofArcs] at he
  obtain ⟨a, ha, rfl⟩ := List.mem_map.mp he
  exact h a (List.mem_of_mem_filter ha)

theorem Scalar.rat_one : (one : ℚ) = 1 :=
  Nat.cast_one

theorem Scalar.rat_ofNat (n : Nat) : (ofNat n : ℚ) = n :=
  rfl

namespace PageRank

open Scalar

variable {t : Topology ℚ} {damping tolerance : ℚ} {ranks : List ℚ}

section Iterations

variable {K : Type} [Scalar K]

def after (t : Topology K) (damping : K) (k : Nat) : List K :=
  (iterate t damping)^[k] (List.replicate t.size (one / ofNat t.size))

theorem settle_eq_iterate (t : Topology K) (damping tolerance : K) (left : Nat) (ranks : List K) :
    ∃ k ≤ left, settle t damping tolerance left ranks = (iterate t damping)^[k] ranks := by
  induction left generalizing ranks with
  | zero => exact ⟨0, Nat.le_refl 0, rfl⟩
  | succ left ih =>
    rw [settle]
    split
    · exact ⟨1, Nat.succ_le_succ (Nat.zero_le left), rfl⟩
    · obtain ⟨k, hk, heq⟩ := ih (iterate t damping ranks)
      exact ⟨k + 1, Nat.succ_le_succ hk, heq⟩

theorem compute_eq_after {t : Topology K} (hsize : t.size ≠ 0) (p : Parameters K) :
    ∃ k ≤ p.maxIterations, compute t p = normalize (after t p.damping k) := by
  obtain ⟨k, hk, heq⟩ := settle_eq_iterate t p.damping p.tolerance p.maxIterations
    (List.replicate t.size (one / ofNat t.size))
  refine ⟨k, hk, ?_⟩
  rw [compute, if_neg hsize, after]
  exact congrArg normalize heq

end Iterations

section Mass

theorem sum_map_swap {α β : Type} (f : α → β → ℚ) (xs : List α) (ys : List β) :
    (xs.map fun x => (ys.map fun y => f x y).sum).sum = (ys.map fun y => (xs.map fun x => f x y).sum).sum := by
  simpa using Multiset.sum_map_sum_map (f := f) (xs : Multiset α) (ys : Multiset β)

theorem sum_map_range_ite {n i : Nat} (hi : i < n) (x : ℚ) :
    ((List.range n).map fun w => if i = w then x else 0).sum = x := by
  have hsum := Finset.sum_ite_eq (Finset.range n) i fun _ => x
  rw [if_pos (Finset.mem_range.mpr hi)] at hsum
  exact hsum

theorem outWeight_pos {v : Nat} (h : ¬ isDangling t v = true) : 0 < t.outWeight v := by
  rw [isDangling, atMost, instScalarRat, rat_zero, decide_eq_true_eq] at h
  exact not_le.mp h

theorem sum_flow (ht : t.Bounded) (damping : ℚ) (v : Nat) (rank : ℚ) :
    ((List.range t.size).map (flow t damping v rank)).sum = if isDangling t v then 0 else damping * rank := by
  unfold flow
  split
  case isTrue => simp
  case isFalse hdangling =>
    have hpos := outWeight_pos hdangling
    have htargets : ∀ e ∈ t.weightedSuccessors v,
        ((List.range t.size).map fun w => if e.1 = w then damping * rank * e.2 / t.outWeight v else 0).sum =
          damping * rank / t.outWeight v * e.2 := by
      intro e he
      rw [sum_map_range_ite (ht v e.1 (List.mem_map_of_mem he)), mul_div_right_comm]
    rw [sum_map_swap, List.map_congr_left htargets, List.sum_map_mul_left]
    have htotal : ((t.weightedSuccessors v).map (·.2)).sum = t.outWeight v := (rat_sum _).symm
    rw [htotal]
    exact div_mul_cancel₀ _ hpos.ne'

theorem sum_passed_add_danglingRank (t : Topology ℚ) (damping : ℚ) (ranks : List ℚ) :
    (ranks.zipIdx.map fun r => if isDangling t r.2 then 0 else damping * r.1).sum +
      damping * danglingRank t ranks = damping * ranks.sum := by
  have hwhole := List.sum_map_filter_add_sum_map_filter_not (fun r : ℚ × Nat => isDangling t r.2 = true) (·.1)
    ranks.zipIdx
  rw [List.zipIdx_map_fst] at hwhole
  rw [List.sum_map_ite, danglingRank, rat_sum, List.sum_map_zero, List.sum_map_mul_left, zero_add, ← mul_add,
    add_comm]
  simpa using congrArg (damping * ·) hwhole

theorem iterate_eq_map (t : Topology ℚ) (damping : ℚ) (ranks : List ℚ) :
    iterate t damping ranks = (List.range ranks.length).map fun w =>
      baseRank t damping ranks + (ranks.zipIdx.map fun r => flow t damping r.2 r.1 w).sum := by
  apply List.ext_getElem?
  intro w
  rw [iterate_getElem?, List.getElem?_map]
  by_cases hw : w < ranks.length <;> simp [hw]

theorem sum_iterate (ht : t.Bounded) (hsize : t.size ≠ 0) (damping : ℚ) (hlength : ranks.length = t.size) :
    (iterate t damping ranks).sum = (1 - damping) + damping * ranks.sum := by
  have hbase : ((List.range t.size).map fun _ => baseRank t damping ranks).sum =
      (1 - damping) + damping * danglingRank t ranks := by
    have hn : (t.size : ℚ) ≠ 0 := Nat.cast_ne_zero.mpr hsize
    rw [List.map_const', List.sum_replicate, List.length_range, nsmul_eq_mul]
    rw [baseRank, rat_ofNat, rat_one, ← add_div, mul_div_cancel₀ _ hn]
  have hflows : ((List.range t.size).map fun w => (ranks.zipIdx.map fun r => flow t damping r.2 r.1 w).sum).sum =
      (ranks.zipIdx.map fun r => if isDangling t r.2 then 0 else damping * r.1).sum := by
    rw [sum_map_swap]
    exact congrArg List.sum (List.map_congr_left fun r _ => sum_flow ht damping r.2 r.1)
  rw [iterate_eq_map, hlength, List.sum_map_add, hbase, hflows, add_assoc, add_comm (damping * _),
    sum_passed_add_danglingRank]

end Mass

structure IsDistribution (n : Nat) (ranks : List ℚ) : Prop where
  length_eq : ranks.length = n
  sum_eq : ranks.sum = 1

theorem isDistribution_uniform {n : Nat} (hn : n ≠ 0) : IsDistribution n (List.replicate n (one / ofNat n)) where
  length_eq := List.length_replicate
  sum_eq := by
    rw [List.sum_replicate, nsmul_eq_mul, rat_one, rat_ofNat]
    exact mul_one_div_cancel (Nat.cast_ne_zero.mpr hn)

namespace IsDistribution

theorem iterate (ht : t.Bounded) (hsize : t.size ≠ 0) (h : IsDistribution t.size ranks) (damping : ℚ) :
    IsDistribution t.size (iterate t damping ranks) where
  length_eq := by rw [iterate_eq_map, List.length_map, List.length_range, h.length_eq]
  sum_eq := by rw [sum_iterate ht hsize damping h.length_eq, h.sum_eq, mul_one, sub_add_cancel]

theorem normalize_eq {n : Nat} (h : IsDistribution n ranks) : normalize ranks = ranks := by
  rw [normalize, rat_sum, h.sum_eq]
  simp

end IsDistribution

theorem after_induction {P : List ℚ → Prop} (hstart : P (List.replicate t.size (one / ofNat t.size)))
    (hstep : ∀ ranks, P ranks → P (iterate t damping ranks)) (k : Nat) : P (after t damping k) := by
  induction k with
  | zero => exact hstart
  | succ k ih =>
    rw [after, Function.iterate_succ_apply']
    exact hstep _ ih

theorem after_isDistribution (ht : t.Bounded) (hsize : t.size ≠ 0) (damping : ℚ) (k : Nat) :
    IsDistribution t.size (after t damping k) :=
  after_induction (isDistribution_uniform hsize) (fun _ h => h.iterate ht hsize damping) k

theorem exists_compute_eq_after (ht : t.Bounded) (hsize : t.size ≠ 0) (p : Parameters ℚ) :
    ∃ k ≤ p.maxIterations, compute t p = after t p.damping k := by
  obtain ⟨k, hk, heq⟩ := compute_eq_after hsize p
  exact ⟨k, hk, heq.trans (after_isDistribution ht hsize p.damping k).normalize_eq⟩

section Floor

variable (hweights : t.NonNegative) (hdamping : 0 ≤ damping)
include hweights hdamping

theorem flow_nonneg (v : Nat) {rank : ℚ} (hrank : 0 ≤ rank) (w : Nat) : 0 ≤ flow t damping v rank w := by
  unfold flow
  split
  case isTrue => exact le_rfl
  case isFalse hdangling =>
    have hpos := outWeight_pos hdangling
    apply List.sum_nonneg
    intro x hx
    obtain ⟨e, he, rfl⟩ := List.mem_map.mp hx
    split
    · exact div_nonneg (mul_nonneg (mul_nonneg hdamping hrank) (hweights v e he)) hpos.le
    · exact le_rfl

omit hweights in
theorem le_baseRank (hranks : ∀ r ∈ ranks, 0 ≤ r) : (1 - damping) / t.size ≤ baseRank t damping ranks := by
  have hdangling : 0 ≤ danglingRank t ranks := by
    rw [danglingRank, rat_sum]
    apply List.sum_nonneg
    intro x hx
    obtain ⟨r, hr, rfl⟩ := List.mem_map.mp hx
    exact hranks r.1 (List.fst_mem_of_mem_zipIdx (List.mem_of_mem_filter hr))
  rw [baseRank, rat_one, rat_ofNat]
  exact le_add_of_nonneg_right (div_nonneg (mul_nonneg hdamping hdangling) (Nat.cast_nonneg _))

theorem le_of_mem_iterate (hranks : ∀ r ∈ ranks, 0 ≤ r) {x : ℚ} (hx : x ∈ iterate t damping ranks) :
    (1 - damping) / t.size ≤ x := by
  rw [iterate_eq_map] at hx
  obtain ⟨w, _, rfl⟩ := List.mem_map.mp hx
  refine le_add_of_le_of_nonneg (le_baseRank hdamping hranks) (List.sum_nonneg ?_)
  intro y hy
  obtain ⟨r, hr, rfl⟩ := List.mem_map.mp hy
  exact flow_nonneg hweights hdamping r.2 (hranks r.1 (List.fst_mem_of_mem_zipIdx hr)) w

/-- Without negative weights and with damping up to one, no rank is ever below the share of a node in what is not
damped. -/
theorem le_of_mem_after (hproportion : damping ≤ 1) (k : Nat) :
    ∀ r ∈ after t damping k, (1 - damping) / t.size ≤ r := by
  have hfloor : 0 ≤ (1 - damping) / t.size := div_nonneg (sub_nonneg.mpr hproportion) (Nat.cast_nonneg _)
  refine after_induction (P := fun ranks => ∀ r ∈ ranks, (1 - damping) / t.size ≤ r) ?_ ?_ k
  · intro r hr
    obtain rfl := List.eq_of_mem_replicate hr
    rw [rat_one, rat_ofNat]
    exact div_le_div_of_nonneg_right (sub_le_self 1 hdamping) (Nat.cast_nonneg _)
  · intro ranks h r hr
    exact le_of_mem_iterate hweights hdamping (fun x hx => hfloor.trans (h x hx)) hr

end Floor

/-- Whatever the weights and the parameters, the exact ranks after every iteration and those computed in the end sum
up to one. If no weight is negative and the damping is between zero and one, all these ranks are at least the share
of a node in what is not damped. -/
theorem ranks_isDistribution (n : Nat) (arcs : List (Arc ℚ)) (p : Parameters ℚ) (hn : 0 < n) (ranks : List ℚ)
    (hranks : ranks = compute (.ofArcs n arcs) p ∨ ∃ k, ranks = after (.ofArcs n arcs) p.damping k) :
    IsDistribution n ranks ∧
      ((Topology.ofArcs n arcs).NonNegative → 0 ≤ p.damping → p.damping ≤ 1 →
        ∀ r ∈ ranks, (1 - p.damping) / n ≤ r ∧ 0 ≤ r ∧ (p.damping < 1 → 0 < r)) := by
  have ht : (Topology.ofArcs n arcs).Bounded := Topology.bounded_ofArcs n arcs
  have hsize : (Topology.ofArcs n arcs).size = n := Topology.size_ofArcs n arcs
  have hne : (Topology.ofArcs n arcs).size ≠ 0 := by rw [hsize]; exact hn.ne'
  obtain ⟨k, rfl⟩ : ∃ k, ranks = after (.ofArcs n arcs) p.damping k := by
    rcases hranks with rfl | hafter
    · obtain ⟨k, _, hk⟩ := exists_compute_eq_after ht hne p
      exact ⟨k, hk⟩
    · exact hafter
  have hdistribution := after_isDistribution ht hne p.damping k
  rw [hsize] at hdistribution
  refine ⟨hdistribution, ?_⟩
  intro hweights hdamping hproportion r hr
  have hle := le_of_mem_after hweights hdamping hproportion k r hr
  rw [hsize] at hle
  have hpos : (0 : ℚ) < n := Nat.cast_pos.mpr hn
  refine ⟨hle, (div_nonneg (sub_nonneg.mpr hproportion) hpos.le).trans hle, ?_⟩
  intro hlt
  exact (div_pos (sub_pos.mpr hlt) hpos).trans_le hle

/-- A node with an edge to itself and two edges to a second node, which points to a dangling node. -/
theorem ranks_isDistribution_of_dangling :
    let t := Topology.ofArcs 3 [⟨0, 0, 1⟩, ⟨0, 1, 1 / 2⟩, ⟨0, 1, 1⟩, ⟨1, 2, 1⟩]
    let p : Parameters ℚ := ⟨1 / 2, 1, 0⟩
    compute t p = [13 / 45, 29 / 90, 7 / 18] ∧ IsDistribution 3 (compute t p) ∧
      ∀ r ∈ compute t p, (1 - 1 / 2) / (3 : Nat) ≤ r ∧ 0 ≤ r ∧ ((1 / 2 : ℚ) < 1 → 0 < r) := by
  intro t p
  have hweights : t.NonNegative := Topology.nonNegative_ofArcs (by decide +kernel)
  obtain ⟨hdistribution, hfloor⟩ := ranks_isDistribution 3 _ p (by decide) (compute t p) (.inl rfl)
  exact ⟨by decide +kernel, hdistribution, hfloor hweights (by decide +kernel) (by decide +kernel)⟩

end PageRank

end ModuleGraph
