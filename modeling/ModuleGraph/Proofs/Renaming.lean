import ModuleGraph.Proofs.Arrangement
import ModuleGraph.Proofs.ComponentCycles
import Mathlib.Data.Finset.Image

namespace ModuleGraph.Topology

variable {K : Type} {σ : Equiv.Perm Nat} {t t' : Topology K}

structure Renames (σ : Equiv.Perm Nat) (t t' : Topology K) : Prop where
  size_eq : t'.size = t.size
  lt_iff : ∀ v, σ v < t.size ↔ v < t.size
  edges : ∀ v, t'.weightedSuccessors (σ v) = (t.weightedSuccessors v).map fun e => (σ e.1, e.2)

namespace Renames

variable (h : Renames σ t t')
include h

theorem successors (v : Nat) : t'.successors (σ v) = (t.successors v).map σ := by
  simp [Topology.successors, h.edges v, Function.comp_def]

theorem mem_successors {v w : Nat} : σ w ∈ t'.successors (σ v) ↔ w ∈ t.successors v := by
  rw [h.successors v, List.mem_map_of_injective σ.injective]

theorem range_perm : ((List.range t.size).map σ).Perm (List.range t.size) := by
  have harranged : Arranged σ (List.range t.size) ((List.range t.size).map σ.symm) := by
    intro i
    by_cases hi : i < t.size
    · simp [hi, (h.lt_iff i).mpr hi]
    · have hσ : ¬ σ i < t.size := fun hσ => hi ((h.lt_iff i).mp hσ)
      simp [hi, hσ]
  have hperm := (harranged.perm.map σ)
  rwa [List.map_map, Equiv.self_comp_symm, List.map_id] at hperm

theorem reaches {v w : Nat} (hr : t.Reaches v w) : t'.Reaches (σ v) (σ w) := by
  induction hr with
  | refl => exact .refl _
  | tail _ hstep ih => exact ih.trans (.of_mem (h.mem_successors.mpr hstep))

theorem symm : Renames σ.symm t' t where
  size_eq := h.size_eq.symm
  lt_iff v := by
    have hv := h.lt_iff (σ.symm v)
    rw [σ.apply_symm_apply] at hv
    rw [h.size_eq, hv]
  edges v := by
    have hv := h.edges (σ.symm v)
    rw [σ.apply_symm_apply] at hv
    simp [hv, Function.comp_def]

theorem reaches_iff {v w : Nat} : t'.Reaches (σ v) (σ w) ↔ t.Reaches v w := by
  constructor
  · intro hr
    simpa using h.symm.reaches hr
  · exact h.reaches

theorem mutual_iff {v w : Nat} : t'.Mutual (σ v) (σ w) ↔ t.Mutual v w := by
  rw [Mutual, Mutual, h.reaches_iff, h.reaches_iff]

theorem cyclic {v : Nat} (hv : t.Cyclic v) : t'.Cyclic (σ v) := by
  rcases hv with hself | ⟨w, hw, hmut⟩
  · exact .inl (h.mem_successors.mpr hself)
  · exact .inr ⟨σ w, fun heq => hw (σ.injective heq), h.mutual_iff.mpr hmut⟩

theorem isCycle {c : List Nat} (hc : t.IsCycle c) : t'.IsCycle (c.map σ) := by
  obtain ⟨hnodup, r, hr, hmem⟩ := hc
  refine ⟨hnodup.map σ.injective, σ r, h.cyclic hr, ?_⟩
  intro w
  obtain ⟨w, rfl⟩ := σ.surjective w
  rw [List.mem_map_of_injective σ.injective, hmem w, h.mutual_iff]

end Renames

end ModuleGraph.Topology

namespace ModuleGraph.Component

variable {K : Type} {σ : Equiv.Perm Nat} {t t' : Topology K}

theorem mem_map_toFinset_cycles (ht : t.Bounded) {members : Finset Nat} :
    members ∈ (cycles t).map List.toFinset ↔ ∃ c, t.IsCycle c ∧ c.toFinset = members := by
  rw [List.mem_map]
  constructor
  · intro ⟨c, hc, heq⟩
    exact ⟨c, isCycle_of_mem_cycles ht hc, heq⟩
  · intro ⟨c, hc, heq⟩
    obtain ⟨_, r, hr, hmem⟩ := hc
    obtain ⟨d, hd, hrd⟩ := exists_mem_cycles ht hr.lt_size hr
    refine ⟨d, hd, ?_⟩
    rw [← heq]
    ext w
    rw [List.mem_toFinset, List.mem_toFinset, hmem w, (isCycle_of_mem_cycles ht hd).mutual hrd]

theorem nodup_map_toFinset_cycles (ht : t.Bounded) : ((cycles t).map List.toFinset).Nodup := by
  refine List.pairwise_map.mpr ((cycles_pairwise ht).imp_of_mem ?_)
  intro c d hc _ hapart heq
  obtain ⟨_, r, _, hmem⟩ := isCycle_of_mem_cycles ht hc
  have hrc : r ∈ c := (hmem r).mpr ⟨.refl r, .refl r⟩
  have hrd : r ∈ d := List.mem_toFinset.mp (heq ▸ List.mem_toFinset.mpr hrc)
  exact hapart r hrc r hrd (.refl r)

theorem cycles_renamed (ht : t.Bounded) (ht' : t'.Bounded) (h : t.Renames σ t') :
    ((cycles t).map fun c => (c.map σ).toFinset).Perm ((cycles t').map List.toFinset) := by
  have himage : ((cycles t).map fun c => (c.map σ).toFinset) =
      ((cycles t).map List.toFinset).map (Finset.image σ) := by
    simp only [List.map_map]
    refine List.map_congr_left fun c _ => ?_
    ext w
    simp
  have hnodup := (nodup_map_toFinset_cycles ht).map (Finset.image_injective σ.injective)
  rw [← himage] at hnodup
  refine (List.perm_ext_iff_of_nodup hnodup (nodup_map_toFinset_cycles ht')).mpr ?_
  intro members
  rw [mem_map_toFinset_cycles ht', List.mem_map]
  constructor
  · intro ⟨c, hc, heq⟩
    exact ⟨c.map σ, h.isCycle (isCycle_of_mem_cycles ht hc), heq⟩
  · intro ⟨c, hc, heq⟩
    have hback := (mem_map_toFinset_cycles ht).mpr ⟨_, h.symm.isCycle hc, rfl⟩
    obtain ⟨d, hd, hdc⟩ := List.mem_map.mp hback
    refine ⟨d, hd, ?_⟩
    rw [← heq]
    ext w
    have hw : w ∈ c ↔ σ.symm w ∈ d := by
      rw [← List.mem_toFinset (l := d), hdc, List.mem_toFinset, List.mem_map_of_injective σ.symm.injective]
    rw [List.mem_toFinset, List.mem_toFinset, hw, List.mem_map]
    constructor
    · intro ⟨v, hv, hvw⟩
      simpa [← hvw] using hv
    · intro hv
      exact ⟨σ.symm w, hv, σ.apply_symm_apply w⟩

end ModuleGraph.Component
