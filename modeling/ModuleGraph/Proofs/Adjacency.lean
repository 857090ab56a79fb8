import ModuleGraph.Topology
import Mathlib.Logic.Relation
import Mathlib.Data.List.Basic

namespace ModuleGraph

theorem getD_modify {α : Type} (a : Array α) (i j : Nat) (f : α → α) (d : α) :
    (a.modify i f).getD j d = if i = j ∧ j < a.size then f (a.getD j d) else a.getD j d := by
  simp only [Array.getD_eq_getD_getElem?, Array.getElem?_modify]
  by_cases hij : i = j
  · subst hij
    by_cases hi : i < a.size
    · simp [hi]
    · simp [hi]
  · simp [hij]

theorem getD_modify_self {α : Type} {a : Array α} {i : Nat} (hi : i < a.size) (f : α → α) (d : α) :
    (a.modify i f).getD i d = f (a.getD i d) := by
  rw [getD_modify, if_pos ⟨rfl, hi⟩]

theorem getD_modify_of_ne {α : Type} {i j : Nat} (h : i ≠ j) (a : Array α) (f : α → α) (d : α) :
    (a.modify i f).getD j d = a.getD j d := by
  rw [getD_modify, if_neg (fun hh => h hh.1)]

theorem getD_of_size_le {α : Type} {a : Array α} {i : Nat} (hi : a.size ≤ i) (d : α) : a.getD i d = d := by
  simp [Array.getElem?_eq_none hi]

theorem modify_map {α β : Type} (g : α → β) (f : α → α) (f' : β → β) (hf : ∀ x, f' (g x) = g (f x)) (xs : Array α)
    (i : Nat) : (xs.map g).modify i f' = (xs.modify i f).map g := by
  apply Array.ext_getElem?
  intro j
  rw [Array.getElem?_modify, Array.getElem?_map, Array.getElem?_map, Array.getElem?_modify]
  by_cases hij : i = j
  · cases xs[j]? <;> simp [hij, hf]
  · simp [hij]

theorem modify_modify_comm {α : Type} {f g : α → α} (h : ∀ x, f (g x) = g (f x)) (xs : Array α) (i j : Nat) :
    (xs.modify i f).modify j g = (xs.modify j g).modify i f := by
  apply Array.ext_getElem?
  intro k
  simp only [Array.getElem?_modify]
  by_cases hi : i = k
  · by_cases hj : j = k
    · cases xs[k]? <;> simp [hi, hj, h]
    · simp [hi, hj]
  · simp [hi]

namespace Topology

variable {K : Type}

@[simp] theorem size_push (a : Arc K) (t : Topology K) : (push a t).size = t.size := by
  simp [push, size]

theorem weightedSuccessors_push {a : Arc K} {t : Topology K} {v : Nat} (hv : v < t.size) :
    (push a t).weightedSuccessors v =
      if a.source = v then (a.target, a.weight) :: t.weightedSuccessors v else t.weightedSuccessors v := by
  have hout : v < t.outgoing.size := hv
  simp only [push, weightedSuccessors, getD_modify, hout, and_true]

theorem size_foldr_push (arcs : List (Arc K)) (t : Topology K) : (arcs.foldr push t).size = t.size := by
  induction arcs with
  | nil => rfl
  | cons a arcs ih => rw [List.foldr_cons, size_push, ih]

@[simp] theorem size_ofArcs (n : Nat) (arcs : List (Arc K)) : (ofArcs n arcs).size = n := by
  rw [ofArcs, size_foldr_push]
  simp [size]

theorem weightedSuccessors_foldr_push (arcs : List (Arc K)) {t : Topology K} {v : Nat} (hv : v < t.size) :
    (arcs.foldr push t).weightedSuccessors v =
      ((arcs.filter fun a => a.source == v).map fun a => (a.target, a.weight)) ++ t.weightedSuccessors v := by
  induction arcs with
  | nil => rfl
  | cons a arcs ih =>
    have hv' : v < (arcs.foldr push t).size := by rw [size_foldr_push]; exact hv
    rw [List.foldr_cons, weightedSuccessors_push hv', ih]
    by_cases ha : a.source = v
    · simp [ha]
    · simp [ha]

theorem weightedSuccessors_of_size_le {t : Topology K} {v : Nat} (hv : t.size ≤ v) :
    t.weightedSuccessors v = [] :=
  getD_of_size_le hv []

theorem weightedSuccessors_ofArcs (n : Nat) (arcs : List (Arc K)) (v : Nat) :
    (ofArcs n arcs).weightedSuccessors v =
      (arcs.filter fun a => inRange n a && a.source == v).map fun a => (a.target, a.weight) := by
  by_cases hv : v < n
  · have hstart : v < (⟨Array.replicate n [], Array.replicate n []⟩ : Topology K).size := by simpa [size] using hv
    have hnil : (⟨Array.replicate n [], Array.replicate n []⟩ : Topology K).weightedSuccessors v = [] := by
      simp [weightedSuccessors, hv]
    rw [ofArcs, weightedSuccessors_foldr_push _ hstart, hnil, List.append_nil, List.filter_filter]
    simp only [Bool.and_comm]
  · have hsize : (ofArcs n arcs).size ≤ v := by
      rw [size_ofArcs]
      exact Nat.le_of_not_lt hv
    rw [weightedSuccessors_of_size_le hsize, eq_comm, List.map_eq_nil_iff, List.filter_eq_nil_iff]
    intro a _ ha
    simp only [inRange, Bool.and_eq_true, decide_eq_true_eq, beq_iff_eq] at ha
    omega

theorem successors_ofArcs (n : Nat) (arcs : List (Arc K)) (v : Nat) :
    (ofArcs n arcs).successors v = (arcs.filter fun a => inRange n a && a.source == v).map (·.target) := by
  rw [successors, weightedSuccessors_ofArcs, List.map_map]
  rfl

theorem lt_size_of_mem_successors {t : Topology K} {v w : Nat} (h : w ∈ t.successors v) : v < t.size := by
  by_contra hv
  rw [successors, weightedSuccessors_of_size_le (Nat.le_of_not_lt hv)] at h
  exact List.not_mem_nil h

theorem mem_successors_ofArcs {n v w : Nat} (hv : v < n) {arcs : List (Arc K)} :
    w ∈ (ofArcs n arcs).successors v ↔ ∃ a ∈ arcs, a.source = v ∧ a.target = w ∧ w < n := by
  rw [successors_ofArcs]
  simp only [inRange, List.mem_map, List.mem_filter, Bool.and_eq_true, decide_eq_true_eq, beq_iff_eq]
  constructor
  · rintro ⟨a, ⟨ha, ⟨hs, ht⟩, rfl⟩, rfl⟩
    exact ⟨a, ha, rfl, rfl, ht⟩
  · rintro ⟨a, ha, rfl, rfl, ht⟩
    exact ⟨a, ⟨ha, ⟨hv, ht⟩, rfl⟩, rfl⟩

def Bounded (t : Topology K) : Prop :=
  ∀ v w, w ∈ t.successors v → w < t.size

theorem bounded_ofArcs (n : Nat) (arcs : List (Arc K)) : (ofArcs n arcs).Bounded := by
  intro v w h
  have hv : v < n := by simpa using lt_size_of_mem_successors h
  obtain ⟨_, _, _, _, hw⟩ := (mem_successors_ofArcs hv).mp h
  simpa using hw

def Reaches (t : Topology K) : Nat → Nat → Prop :=
  Relation.ReflTransGen fun v w => w ∈ t.successors v

theorem Reaches.refl {t : Topology K} (v : Nat) : t.Reaches v v :=
  Relation.ReflTransGen.refl

theorem Reaches.trans {t : Topology K} {u v w : Nat} (h : t.Reaches u v) (h' : t.Reaches v w) :
    t.Reaches u w :=
  Relation.ReflTransGen.trans h h'

theorem Reaches.of_mem {t : Topology K} {v w : Nat} (h : w ∈ t.successors v) : t.Reaches v w :=
  Relation.ReflTransGen.single h

def Mutual (t : Topology K) (v w : Nat) : Prop :=
  t.Reaches v w ∧ t.Reaches w v

theorem Mutual.symm {t : Topology K} {v w : Nat} (h : t.Mutual v w) : t.Mutual w v :=
  ⟨h.2, h.1⟩

theorem Mutual.trans {t : Topology K} {u v w : Nat} (h : t.Mutual u v) (h' : t.Mutual v w) : t.Mutual u w :=
  ⟨h.1.trans h'.1, h'.2.trans h.2⟩

end Topology

end ModuleGraph
