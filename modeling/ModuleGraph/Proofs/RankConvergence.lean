import ModuleGraph.Proofs.RankContraction
import Mathlib.Tactic.NormNum

namespace ModuleGraph.PageRank

open Scalar

section Exit

variable {K : Type} [Scalar K] {t : Topology K} {damping tolerance : K} {left k : Nat} {ranks : List K}

/-- The iteration, counted from zero, in which the test on the tolerance ends the loop of `settle`, if it does. -/
def exitFrom? (t : Topology K) (damping tolerance : K) : (left : Nat) → List K → Option Nat
  | 0, _ => none
  | left + 1, ranks =>
    let next := iterate t damping ranks
    if less (maxDelta ranks next) tolerance then some 0
    else (exitFrom? t damping tolerance left next).map (· + 1)

theorem settle_eq_exitFrom (t : Topology K) (damping tolerance : K) (left : Nat) (ranks : List K) :
    settle t damping tolerance left ranks =
      (iterate t damping)^[(exitFrom? t damping tolerance left ranks).elim left (· + 1)] ranks := by
  induction left generalizing ranks with
  | zero => rfl
  | succ left ih =>
    rw [settle, exitFrom?]
    split
    · rfl
    · rw [ih]
      cases exitFrom? t damping tolerance left (iterate t damping ranks) <;> rfl

theorem less_of_exitFrom (h : exitFrom? t damping tolerance left ranks = some k) :
    less (maxDelta ((iterate t damping)^[k] ranks) ((iterate t damping)^[k + 1] ranks)) tolerance = true := by
  induction left generalizing ranks k with
  | zero => cases h
  | succ left ih =>
    rw [exitFrom?] at h
    split at h
    next hless =>
      cases h
      exact hless
    next =>
      obtain ⟨j, hj, rfl⟩ := Option.map_eq_some_iff.mp h
      exact (ih hj :)

theorem exists_exitFrom (hk : k < left)
    (h : less (maxDelta ((iterate t damping)^[k] ranks) ((iterate t damping)^[k + 1] ranks)) tolerance = true) :
    ∃ j ≤ k, exitFrom? t damping tolerance left ranks = some j := by
  induction k generalizing left ranks with
  | zero =>
    obtain ⟨left, rfl⟩ := Nat.exists_eq_add_one_of_ne_zero hk.ne'
    exact ⟨0, Nat.le_refl 0, if_pos h⟩
  | succ k ih =>
    obtain ⟨left, rfl⟩ := Nat.exists_eq_add_one_of_ne_zero (Nat.ne_zero_of_lt hk)
    obtain ⟨j, hj, heq⟩ := ih (Nat.lt_of_succ_lt_succ hk) h
    rw [exitFrom?]
    split
    · exact ⟨0, Nat.zero_le _, rfl⟩
    · exact ⟨j + 1, Nat.succ_le_succ hj, by rw [heq]; rfl⟩

/-- The iteration, counted from zero, in which the test on the tolerance ends the computation, if it does. -/
def exit? (t : Topology K) (p : Parameters K) : Option Nat :=
  exitFrom? t p.damping p.tolerance p.maxIterations (List.replicate t.size (one / ofNat t.size))

def change (t : Topology K) (damping : K) (k : Nat) : K :=
  maxDelta (after t damping k) (after t damping (k + 1))

end Exit

variable {t : Topology ℚ} {damping : ℚ} {p : Parameters ℚ} {k : Nat}

theorem after_succ (t : Topology ℚ) (damping : ℚ) (k : Nat) :
    after t damping (k + 1) = iterate t damping (after t damping k) :=
  Function.iterate_succ_apply' _ _ _

theorem change_lt_of_exit (h : exit? t p = some k) : change t p.damping k < p.tolerance :=
  of_decide_eq_true (less_of_exitFrom h)

theorem exists_exit_of_change_lt (hk : k < p.maxIterations) (h : change t p.damping k < p.tolerance) :
    ∃ j ≤ k, exit? t p = some j :=
  exists_exitFrom hk (decide_eq_true h)

theorem compute_of_exit (ht : t.Bounded) (hsize : t.size ≠ 0) (h : exit? t p = some k) :
    compute t p = after t p.damping (k + 1) := by
  have hsettle := settle_eq_exitFrom t p.damping p.tolerance p.maxIterations
    (List.replicate t.size (one / ofNat t.size))
  rw [← exit?, h] at hsettle
  rw [compute, if_neg hsize]
  exact (congrArg normalize hsettle).trans (after_isDistribution ht hsize p.damping (k + 1)).normalize_eq

section Bounds

variable (ht : t.Bounded) (hsize : t.size ≠ 0) (hweights : t.NonNegative) (hdamping : 0 ≤ damping)
include ht hsize hweights hdamping

theorem distance_after_one_le : distance (after t damping 0) (after t damping 1) ≤ 2 * damping := by
  have hn : (t.size : ℚ) ≠ 0 := Nat.cast_ne_zero.mpr hsize
  have hstart : after t damping 0 = List.ofFn fun _ : Fin t.size => 1 / (t.size : ℚ) := by
    rw [List.ofFn_const, after, Function.iterate_zero_apply, rat_one, rat_ofNat]
  -- The undamped part of an entry takes the place of as much of its old value.
  have hentry : ∀ w : Fin t.size, |1 / (t.size : ℚ) - advance t damping (fun _ => 1 / (t.size : ℚ)) w| ≤
      damping / t.size + ∑ v : Fin t.size, 1 / (t.size : ℚ) * transition t damping v w := by
    intro w
    have harrives : 0 ≤ ∑ v : Fin t.size, 1 / (t.size : ℚ) * transition t damping v w := by
      refine Finset.sum_nonneg fun v _ => mul_nonneg ?_ (transition_nonneg hweights hdamping v w)
      exact one_div_nonneg.mpr (Nat.cast_nonneg _)
    have hleaves : 0 ≤ damping / t.size := div_nonneg hdamping (Nat.cast_nonneg _)
    rw [advance, sub_div, abs_le]
    constructor <;> linarith
  rw [after_succ, hstart, iterate_ofFn, distance_ofFn]
  calc ∑ w, |1 / (t.size : ℚ) - advance t damping (fun _ => 1 / (t.size : ℚ)) w|
      ≤ ∑ w : Fin t.size, (damping / t.size + ∑ v : Fin t.size, 1 / (t.size : ℚ) * transition t damping v w) :=
        Finset.sum_le_sum fun w _ => hentry w
    _ = damping + ∑ v : Fin t.size, 1 / (t.size : ℚ) * ∑ w : Fin t.size, transition t damping v w := by
        rw [Finset.sum_add_distrib, Finset.sum_comm]
        simp only [Finset.mul_sum, Finset.sum_const, Finset.card_univ, Fintype.card_fin, nsmul_eq_mul]
        rw [mul_div_cancel₀ _ hn]
    _ = 2 * damping := by
        simp only [sum_transition ht hsize, Finset.sum_const, Finset.card_univ, Fintype.card_fin, nsmul_eq_mul]
        field_simp
        ring

theorem distance_after_succ_le (k : Nat) :
    distance (after t damping k) (after t damping (k + 1)) ≤ 2 * damping ^ (k + 1) := by
  induction k with
  | zero =>
    rw [zero_add, pow_one]
    exact distance_after_one_le ht hsize hweights hdamping
  | succ k ih =>
    have hlength := fun k => (after_isDistribution ht hsize damping k).length_eq
    calc distance (after t damping (k + 1)) (after t damping (k + 1 + 1))
        ≤ damping * distance (after t damping k) (after t damping (k + 1)) := by
          rw [after_succ t damping (k + 1), after_succ t damping k]
          exact distance_iterate_le ht hsize hweights hdamping (hlength k) (after_succ t damping k ▸ hlength (k + 1))
      _ ≤ damping * (2 * damping ^ (k + 1)) := mul_le_mul_of_nonneg_left ih hdamping
      _ = 2 * damping ^ (k + 1 + 1) := by ring

theorem change_le (k : Nat) : change t damping k ≤ 2 * damping ^ (k + 1) :=
  (maxDelta_le_distance _ _).trans (distance_after_succ_le ht hsize hweights hdamping k)

theorem distance_fixed_le (hproper : damping < 1) {fixed : List ℚ} (hfixed : IsFixed t damping fixed) (k : Nat) :
    distance (after t damping (k + 1)) fixed ≤ t.size * change t damping k * damping / (1 - damping) := by
  have hlength := fun k => (after_isDistribution ht hsize damping k).length_eq
  have hstep : distance (after t damping (k + 1)) fixed ≤ damping * distance (after t damping k) fixed := by
    have hle := distance_iterate_le ht hsize hweights hdamping (hlength k) hfixed.length_eq
    rwa [hfixed.iterate_eq, ← after_succ] at hle
  have hsplit := distance_triangle (hlength k) (hlength (k + 1)) hfixed.length_eq
  have hchange : distance (after t damping k) (after t damping (k + 1)) ≤ t.size * change t damping k :=
    distance_le_mul_maxDelta (hlength k) (hlength (k + 1))
  rw [le_div_iff₀ (sub_pos.mpr hproper)]
  have hbound := mul_le_mul_of_nonneg_left (hsplit.trans (add_le_add_left hchange _)) hdamping
  linarith

end Bounds

/-- Whatever the graph, an iteration changes exact ranks by at most twice a power of the damping. So with the standard
parameters the test on the tolerance always ends the computation, and does so in one of the first 90 iterations. -/
theorem standard_exits_in_time (n : Nat) (arcs : List (Arc ℚ)) (hn : 0 < n)
    (hweights : (Topology.ofArcs n arcs).NonNegative) :
    (∀ damping, 0 ≤ damping → ∀ k, change (.ofArcs n arcs) damping k ≤ 2 * damping ^ (k + 1)) ∧
      ∃ k < 90, exit? (.ofArcs n arcs) .standard = some k ∧
        compute (.ofArcs n arcs) .standard = after (.ofArcs n arcs) Parameters.standard.damping (k + 1) := by
  have ht : (Topology.ofArcs n arcs).Bounded := Topology.bounded_ofArcs n arcs
  have hsize : (Topology.ofArcs n arcs).size ≠ 0 := by
    rw [Topology.size_ofArcs]
    exact hn.ne'
  have hchange : ∀ damping, 0 ≤ damping → ∀ k, change (.ofArcs n arcs) damping k ≤ 2 * damping ^ (k + 1) :=
    fun damping hdamping => change_le ht hsize hweights hdamping
  refine ⟨hchange, ?_⟩
  have hsmall : change (.ofArcs n arcs) Parameters.standard.damping 89 < Parameters.standard.tolerance :=
    (hchange 0.85 (by norm_num) 89).trans_lt (by norm_num [Parameters.standard])
  obtain ⟨k, hk, hexit⟩ := exists_exit_of_change_lt (p := .standard) (by decide) hsmall
  exact ⟨k, by omega, hexit, compute_of_exit ht hsize hexit⟩

/-- A node with an edge to itself and two edges to a second node, which points to a dangling node. -/
theorem standard_exits_in_time_of_dangling :
    let t : Topology ℚ := .ofArcs 3 [⟨0, 0, 1⟩, ⟨0, 1, 1 / 2⟩, ⟨0, 1, 1⟩, ⟨1, 2, 1⟩]
    change t (1 / 2) 1 = 11 / 2700 ∧ change t (1 / 2) 1 ≤ 2 * (1 / 2) ^ (1 + 1) ∧
      ∃ k < 90, exit? t .standard = some k ∧ compute t .standard = after t Parameters.standard.damping (k + 1) := by
  intro t
  have hweights : t.NonNegative := Topology.nonNegative_ofArcs (by decide +kernel)
  obtain ⟨hchange, hexit⟩ := standard_exits_in_time 3 _ (by decide) hweights
  exact ⟨by decide +kernel, hchange (1 / 2) (by decide +kernel) 1, hexit⟩

/-- Exactly one rank vector is left as it is by an iteration. When the test on the tolerance ends the computation, the
sum of the differences to that vector is bounded by the tolerance. -/
theorem compute_near_fixed (n : Nat) (arcs : List (Arc ℚ)) (p : Parameters ℚ) (hn : 0 < n)
    (hweights : (Topology.ofArcs n arcs).NonNegative) (hdamping : 0 ≤ p.damping) (hproper : p.damping < 1) :
    ∃ fixed, (∀ ranks, IsFixed (.ofArcs n arcs) p.damping ranks ↔ ranks = fixed) ∧
      ∀ k, exit? (.ofArcs n arcs) p = some k →
        distance (compute (.ofArcs n arcs) p) fixed ≤ n * p.tolerance * p.damping / (1 - p.damping) := by
  have ht : (Topology.ofArcs n arcs).Bounded := Topology.bounded_ofArcs n arcs
  have hsize : (Topology.ofArcs n arcs).size = n := Topology.size_ofArcs n arcs
  have hne : (Topology.ofArcs n arcs).size ≠ 0 := by
    rw [hsize]
    exact hn.ne'
  obtain ⟨fixed, hfixed⟩ := exists_isFixed_iff ht hne hweights hdamping hproper
  refine ⟨fixed, hfixed, ?_⟩
  intro k hexit
  have hle := distance_fixed_le ht hne hweights hdamping hproper ((hfixed fixed).mpr rfl) k
  rw [hsize] at hle
  have htest : change (.ofArcs n arcs) p.damping k ≤ p.tolerance := (change_lt_of_exit hexit).le
  rw [compute_of_exit ht hne hexit]
  refine hle.trans ?_
  gcongr

/-- The same graph, with its fixed ranks. -/
theorem compute_near_fixed_of_dangling :
    let t := Topology.ofArcs 3 [⟨0, 0, 1⟩, ⟨0, 1, 1 / 2⟩, ⟨0, 1, 1⟩, ⟨1, 2, 1⟩]
    let p : Parameters ℚ := ⟨1 / 2, 10, 1 / 100⟩
    let fixed : List ℚ := [20 / 69, 22 / 69, 9 / 23]
    exit? t p = some 1 ∧ (∀ ranks, IsFixed t (1 / 2) ranks ↔ ranks = fixed) ∧
      distance (compute t p) fixed ≤ (3 : Nat) * (1 / 100) * (1 / 2) / (1 - 1 / 2) := by
  intro t p fixed
  have hweights : t.NonNegative := Topology.nonNegative_ofArcs (by decide +kernel)
  have hexit : exit? t p = some 1 := by decide +kernel
  have hfixed : IsFixed t p.damping fixed := ⟨by decide +kernel, by decide +kernel⟩
  obtain ⟨ranks, hranks, hnear⟩ :=
    compute_near_fixed 3 _ p (by decide) hweights (by decide +kernel) (by decide +kernel)
  obtain rfl : fixed = ranks := (hranks fixed).mp hfixed
  exact ⟨hexit, hranks, hnear 1 hexit⟩

end ModuleGraph.PageRank
