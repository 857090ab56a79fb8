import ModuleGraph.Proofs.Adjacency
import Mathlib.Algebra.BigOperators.Group.Finset.Sigma
import Mathlib.Algebra.BigOperators.Ring.Finset
import Mathlib.Order.Lattice.Nat

namespace ModuleGraph.Topology

variable {K : Type} {t : Topology K} {j k u v w : Nat}

def walks (t : Topology K) : (length : Nat) → (v w : Nat) → Nat
  | 0, v, w => if v = w then 1 else 0
  | length + 1, v, w => ((t.successors v).map fun u => t.walks length u w).sum

theorem walks_zero_self (t : Topology K) (v : Nat) : t.walks 0 v v = 1 :=
  if_pos rfl

theorem walks_zero_of_ne (t : Topology K) (h : v ≠ w) : t.walks 0 v w = 0 :=
  if_neg h

theorem eq_of_walks_zero_pos (h : 0 < t.walks 0 v w) : v = w := by
  by_contra hne
  rw [walks_zero_of_ne t hne] at h
  omega

theorem walks_succ_pos : 0 < t.walks (k + 1) v w ↔ ∃ u ∈ t.successors v, 0 < t.walks k u w := by
  rw [walks, List.sum_pos_iff_exists_pos_nat]
  simp only [List.mem_map, exists_exists_and_eq_and]

theorem walks_pos_trans (h : 0 < t.walks j u v) (h' : 0 < t.walks k v w) : 0 < t.walks (j + k) u w := by
  induction j generalizing u with
  | zero =>
    rw [Nat.zero_add, eq_of_walks_zero_pos h]
    exact h'
  | succ j ih =>
    obtain ⟨x, hx, hpos⟩ := walks_succ_pos.mp h
    rw [Nat.succ_add]
    exact walks_succ_pos.mpr ⟨x, hx, ih hpos⟩

theorem walks_one_pos (h : w ∈ t.successors v) : 0 < t.walks 1 v w :=
  walks_succ_pos.mpr ⟨w, h, by rw [walks_zero_self]; omega⟩

theorem reaches_of_walks_pos (h : 0 < t.walks k v w) : t.Reaches v w := by
  induction k generalizing v with
  | zero => exact eq_of_walks_zero_pos h ▸ .refl v
  | succ k ih =>
    obtain ⟨u, hu, hpos⟩ := walks_succ_pos.mp h
    exact (Reaches.of_mem hu).trans (ih hpos)

theorem exists_walks_pos (h : t.Reaches v w) : ∃ k, 0 < t.walks k v w := by
  induction h with
  | refl => exact ⟨0, by rw [walks_zero_self]; omega⟩
  | tail _ hstep ih =>
    obtain ⟨k, hk⟩ := ih
    exact ⟨k + 1, walks_pos_trans hk (walks_one_pos hstep)⟩

theorem lt_size_of_count_ne_zero (ht : t.Bounded) (h : (t.successors v).count w ≠ 0) : v < t.size ∧ w < t.size := by
  have hmem := List.count_pos_iff.mp (Nat.pos_of_ne_zero h)
  exact ⟨lt_size_of_mem_successors hmem, ht v w hmem⟩

theorem sum_map_eq_sum_range {M : Type} [AddCommMonoid M] {n : Nat} {vs : List Nat} (hvs : ∀ v ∈ vs, v < n)
    (f : Nat → M) : (vs.map f).sum = ∑ v ∈ Finset.range n, vs.count v • f v := by
  have hsubset : vs.toFinset ⊆ Finset.range n := by
    intro v hv
    exact Finset.mem_range.mpr (hvs v (List.mem_toFinset.mp hv))
  rw [Finset.sum_list_map_count]
  apply Finset.sum_subset hsubset
  intro v _ hv
  rw [List.mem_toFinset] at hv
  rw [List.count_eq_zero.mpr hv, zero_nsmul]

theorem walks_succ (ht : t.Bounded) (k v w : Nat) :
    t.walks (k + 1) v w = ∑ u ∈ Finset.range t.size, (t.successors v).count u * t.walks k u w :=
  sum_map_eq_sum_range (ht v) _

theorem walks_succ_last (ht : t.Bounded) (k v w : Nat) :
    t.walks (k + 1) v w = ∑ u ∈ Finset.range t.size, t.walks k v u * (t.successors u).count w := by
  induction k generalizing v with
  | zero =>
    -- Both sums have one term that is not zero: the number of edges from the one node to the other.
    rw [walks_succ ht]
    simp only [walks, mul_ite, ite_mul, mul_one, one_mul, mul_zero, zero_mul, Finset.sum_ite_eq, Finset.sum_ite_eq',
      Finset.mem_range]
    by_cases hcount : (t.successors v).count w = 0
    · simp only [hcount, ite_self]
    · obtain ⟨hv, hw⟩ := lt_size_of_count_ne_zero ht hcount
      rw [if_pos hv, if_pos hw]
  | succ k ih =>
    calc t.walks (k + 1 + 1) v w
        = ∑ x ∈ Finset.range t.size, ∑ u ∈ Finset.range t.size,
            (t.successors v).count x * (t.walks k x u * (t.successors u).count w) := by
          rw [walks_succ ht]
          refine Finset.sum_congr rfl fun x _ => ?_
          rw [ih, Finset.mul_sum]
      _ = ∑ u ∈ Finset.range t.size, ∑ x ∈ Finset.range t.size,
            (t.successors v).count x * t.walks k x u * (t.successors u).count w := by
          rw [Finset.sum_comm]
          simp only [Nat.mul_assoc]
      _ = ∑ u ∈ Finset.range t.size, t.walks (k + 1) v u * (t.successors u).count w := by
          refine Finset.sum_congr rfl fun u _ => ?_
          rw [walks_succ ht, Finset.sum_mul]

theorem exists_last_edge (ht : t.Bounded) (h : 0 < t.walks (k + 1) v w) :
    ∃ u, 0 < t.walks k v u ∧ w ∈ t.successors u := by
  rw [walks_succ_last ht] at h
  obtain ⟨u, _, hne⟩ := Finset.exists_ne_zero_of_sum_ne_zero h.ne'
  obtain ⟨hwalk, hcount⟩ := Nat.mul_ne_zero_iff.mp hne
  exact ⟨u, Nat.pos_of_ne_zero hwalk, List.count_pos_iff.mp (Nat.pos_of_ne_zero hcount)⟩

/-- The least number of edges of a walk from one node to another one that it reaches. -/
noncomputable def distance (t : Topology K) (v w : Nat) : Nat :=
  sInf {k | 0 < t.walks k v w}

theorem walks_distance_pos (h : t.Reaches v w) : 0 < t.walks (t.distance v w) v w :=
  Nat.sInf_mem (exists_walks_pos h)

theorem distance_le (h : 0 < t.walks k v w) : t.distance v w ≤ k :=
  Nat.sInf_le h

theorem distance_self (t : Topology K) (v : Nat) : t.distance v v = 0 :=
  Nat.le_zero.mp (distance_le (by rw [walks_zero_self]; omega))

theorem eq_distance (h : 0 < t.walks k v w) (hle : ∀ l, 0 < t.walks l v w → k ≤ l) : t.distance v w = k :=
  Nat.le_antisymm (distance_le h) (hle _ (walks_distance_pos (reaches_of_walks_pos h)))

theorem distance_le_add (h : t.Reaches u v) (hw : 0 < t.walks k v w) : t.distance u w ≤ t.distance u v + k :=
  distance_le (walks_pos_trans (walks_distance_pos h) hw)

end ModuleGraph.Topology
