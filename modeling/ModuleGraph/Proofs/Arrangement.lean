import ModuleGraph.Proofs.Adjacency
import Mathlib.Data.List.Range
import Mathlib.Data.List.Nodup
import Mathlib.Logic.Equiv.Basic

namespace ModuleGraph

variable {α β γ : Type} {σ : Equiv.Perm Nat} {xs xs' : List α}

def Arranged (σ : Equiv.Perm Nat) (xs xs' : List α) : Prop :=
  ∀ i, xs'[σ i]? = xs[i]?

def liftPerm (σ : Equiv.Perm Nat) : Equiv.Perm Nat where
  toFun
    | 0 => 0
    | i + 1 => σ i + 1
  invFun
    | 0 => 0
    | i + 1 => σ.symm i + 1
  left_inv i := by cases i <;> simp
  right_inv i := by cases i <;> simp

theorem exists_arranged (h : xs.Perm xs') : ∃ σ, Arranged σ xs xs' := by
  induction h with
  | nil => exact ⟨Equiv.refl Nat, fun i => rfl⟩
  | @cons x xs xs' _ ih =>
    obtain ⟨σ, hσ⟩ := ih
    refine ⟨liftPerm σ, fun i => ?_⟩
    cases i with
    | zero => rfl
    | succ i => simpa [liftPerm] using hσ i
  | swap x y xs =>
    refine ⟨Equiv.swap 0 1, fun i => ?_⟩
    match i with
    | 0 => simp
    | 1 => simp
    | i + 2 => rw [Equiv.swap_apply_of_ne_of_ne (by omega) (by omega)]; simp
  | trans _ _ ih ih' =>
    obtain ⟨σ, hσ⟩ := ih
    obtain ⟨τ, hτ⟩ := ih'
    exact ⟨σ.trans τ, fun i => (hτ (σ i)).trans (hσ i)⟩

namespace Arranged

theorem lt_iff (h : Arranged σ xs xs') (i : Nat) : σ i < xs'.length ↔ i < xs.length := by
  rw [← not_iff_not, Nat.not_lt, Nat.not_lt, ← List.getElem?_eq_none_iff, ← List.getElem?_eq_none_iff, h i]

theorem range_perm (h : Arranged σ xs xs') :
    ((List.range xs.length).map σ).Perm (List.range xs'.length) := by
  refine (List.perm_ext_iff_of_nodup (List.nodup_range.map σ.injective) List.nodup_range).mpr ?_
  intro j
  rw [List.mem_map, List.mem_range]
  constructor
  · intro ⟨i, hi, hij⟩
    exact hij ▸ (h.lt_iff i).mpr (List.mem_range.mp hi)
  · intro hj
    refine ⟨σ.symm j, List.mem_range.mpr ((h.lt_iff _).mp ?_), σ.apply_symm_apply j⟩
    rw [σ.apply_symm_apply]
    exact hj

theorem length_eq (h : Arranged σ xs xs') : xs'.length = xs.length := by
  simpa using h.range_perm.length_eq.symm

theorem perm (h : Arranged σ xs xs') : xs.Perm xs' := by
  have hplaces : ∀ ys : List α, (List.range ys.length).map (ys[·]?) = ys.map some := by
    intro ys
    apply List.ext_getElem?
    intro i
    by_cases hi : i < ys.length
    · simp [hi]
    · simp [hi]
  have hsome : (xs.map some).Perm (xs'.map some) := by
    rw [← hplaces xs, ← hplaces xs', ← List.map_congr_left fun i _ => h i]
    have hperm := h.range_perm.map (xs'[·]?)
    rwa [List.map_map] at hperm
  have hback := hsome.filterMap id
  simpa using hback

theorem map (h : Arranged σ xs xs') (f : α → β) : Arranged σ (xs.map f) (xs'.map f) := by
  intro i
  rw [List.getElem?_map, List.getElem?_map, h i]

theorem zipIdx_perm (h : Arranged σ xs xs') :
    (xs.zipIdx.map fun x => (x.1, σ x.2)).Perm xs'.zipIdx := by
  have hpairs : Arranged σ (xs.zipIdx.map fun x => (x.1, σ x.2)) xs'.zipIdx := by
    intro i
    rw [List.getElem?_map, List.getElem?_zipIdx, List.getElem?_zipIdx, h i, Option.map_map]
    simp [Function.comp_def]
  exact hpairs.perm

theorem zipWith {ys ys' : List β} (h : Arranged σ xs xs') (h' : Arranged σ ys ys') (f : α → β → γ) :
    Arranged σ (List.zipWith f xs ys) (List.zipWith f xs' ys') := by
  intro i
  rw [List.getElem?_zipWith, List.getElem?_zipWith, h i, h' i]

theorem getD (h : Arranged σ xs xs') (i : Nat) (d : α) : xs'.toArray.getD (σ i) d = xs.toArray.getD i d := by
  simp [h i]

end Arranged

def Mirrors (σ : Equiv.Perm Nat) (a a' : Array α) : Prop :=
  Arranged σ a.toList a'.toList

namespace Mirrors

variable {a a' : Array α}

theorem getElem? (h : Mirrors σ a a') (i : Nat) : a'[σ i]? = a[i]? := by
  simpa using h i

theorem getD (h : Mirrors σ a a') (i : Nat) (d : α) : a'.getD (σ i) d = a.getD i d := by
  simp [h.getElem? i]

theorem of_getElem? (h : ∀ i, a'[σ i]? = a[i]?) : Mirrors σ a a' := by
  intro i
  simpa using h i

theorem modify (h : Mirrors σ a a') (i : Nat) (f : α → α) : Mirrors σ (a.modify i f) (a'.modify (σ i) f) := by
  apply of_getElem?
  intro j
  simp [Array.getElem?_modify, h.getElem? j]

theorem replicate {n : Nat} (hn : ∀ i, σ i < n ↔ i < n) (x : α) :
    Mirrors σ (Array.replicate n x) (Array.replicate n x) := by
  apply of_getElem?
  intro i
  simp [Array.getElem?_replicate, hn i]

end Mirrors

end ModuleGraph
