import ModuleGraph.Betweenness
import ModuleGraph.Proofs.ExactNumbers
import ModuleGraph.Proofs.Renaming
import Mathlib.Algebra.BigOperators.Group.List.Lemmas

namespace ModuleGraph.Betweenness

open Scalar

section Search

variable {K : Type} [Scalar K] {σ : Equiv.Perm Nat} {s s' : Search K}

namespace Search

structure Renames (σ : Equiv.Perm Nat) (s s' : Search K) : Prop where
  taken : s'.taken = s.taken.map σ
  queue : s'.queue = s.queue.map σ
  distance : Mirrors σ s.distance s'.distance
  paths : Mirrors σ s.paths s'.paths
  parents : ∀ v, s'.parents[σ v]? = s.parents[v]?.map (List.map σ)

def meet (d : Nat) (s : Search K) (w : Nat) : Search K :=
  if s.distance.getD w none = none then
    { s with distance := s.distance.modify w fun _ => some (d + 1), queue := s.queue ++ [w] }
  else s

def link (v d : Nat) (s : Search K) (w : Nat) : Search K :=
  if s.distance.getD w none = some (d + 1) then
    { s with
      paths := s.paths.modify w (· + s.paths.getD v zero)
      parents := s.parents.modify w (v :: ·) }
  else s

theorem follow_eq (v d : Nat) (s : Search K) (w : Nat) : follow v d s w = link v d (meet d s w) w :=
  rfl

namespace Renames

theorem start {n : Nat} (hn : ∀ v, σ v < n ↔ v < n) (source : Nat) :
    Renames σ (.start n source : Search K) (.start n (σ source)) where
  taken := rfl
  queue := rfl
  distance := (Mirrors.replicate hn none).modify source _
  paths := (Mirrors.replicate hn zero).modify source _
  parents v := by simp [Search.start, Array.getElem?_replicate, hn v, apply_ite (Option.map (List.map σ))]

omit [Scalar K] in
theorem meet (h : Renames σ s s') (d w : Nat) : Renames σ (s.meet d w) (s'.meet d (σ w)) := by
  rw [Search.meet, Search.meet, h.distance.getD w none]
  split
  · exact { h with queue := by simp [h.queue], distance := h.distance.modify w _ }
  · exact h

theorem link (h : Renames σ s s') (v d w : Nat) : Renames σ (s.link v d w) (s'.link (σ v) d (σ w)) := by
  rw [Search.link, Search.link, h.distance.getD w none]
  split
  · refine { h with paths := ?_, parents := ?_ }
    · rw [h.paths.getD v zero]
      exact h.paths.modify w _
    · intro x
      by_cases hwx : w = x
      · subst hwx
        simp [Array.getElem?_modify, h.parents w, Function.comp_def]
      · simp [Array.getElem?_modify, h.parents x, hwx]
  · exact h

theorem foldl_follow (h : Renames σ s s') (v d : Nat) (ws : List Nat) :
    Renames σ (ws.foldl (follow v d) s) ((ws.map σ).foldl (follow (σ v) d) s') := by
  induction ws generalizing s s' with
  | nil => exact h
  | cons w ws ih =>
    rw [List.map_cons, List.foldl_cons, List.foldl_cons, follow_eq, follow_eq]
    exact ih ((h.meet d w).link v d w)

variable {t t' : Topology K}

theorem step (h : Renames σ s s') (ht : t.Renames σ t') : Renames σ (s.step t) (s'.step t') := by
  cases hq : s.queue with
  | nil =>
    have hq' : s'.queue = [] := by rw [h.queue, hq]; rfl
    simpa only [Search.step, hq, hq'] using h
  | cons v queue =>
    have hq' : s'.queue = σ v :: queue.map σ := by rw [h.queue, hq]; rfl
    have hnext : Renames σ { s with taken := v :: s.taken, queue }
        { s' with taken := σ v :: s'.taken, queue := queue.map σ } :=
      { h with taken := by simp [h.taken], queue := rfl }
    simp only [Search.step, hq, hq', h.distance.getD v none]
    cases s.distance.getD v none with
    | none => exact hnext
    | some d =>
      rw [ht.successors v]
      exact hnext.foldl_follow v d (t.successors v)

theorem run (h : Renames σ s s') (ht : t.Renames σ t') (left : Nat) :
    Renames σ (Search.run t left s) (Search.run t' left s') := by
  induction left generalizing s s' with
  | zero => exact h
  | succ left ih => exact ih (h.step ht)

end Renames

end Search

variable {t t' : Topology K}

theorem search_renamed (ht : t.Renames σ t') (source : Nat) :
    Search.Renames σ (search t source) (search t' (σ source)) := by
  rw [search, search, ht.size_eq]
  exact (Search.Renames.start ht.lt_iff source).run ht t.size

theorem shareBack_renamed (h : Search.Renames σ s s') {share share' : Array K} (hs : Mirrors σ share share')
    (w : Nat) : Mirrors σ (shareBack s share w) (shareBack s' share' (σ w)) := by
  have hparents : s'.parents.getD (σ w) [] = (s.parents.getD w []).map σ := by
    have hw := h.parents w
    rw [Array.getD_eq_getD_getElem?, Array.getD_eq_getD_getElem?, hw]
    cases s.parents[w]? <;> rfl
  rw [shareBack, shareBack, hparents, h.paths.getD w zero]
  induction s.parents.getD w [] with
  | nil => exact hs
  | cons v vs ih =>
    rw [List.map_cons, List.foldr_cons, List.foldr_cons, ih.getD w zero, h.paths.getD v zero]
    exact ih.modify v _

end Search

/-- What a node gains when a source's nodes are gone through, farthest first. -/
def gain (s : Search ℚ) (source : Nat) : List Nat → Array ℚ → Nat → ℚ
  | [], _, _ => 0
  | w :: ws, share, x =>
    (if w ≠ source ∧ w = x then (shareBack s share w).getD w 0 else 0) +
      gain s source ws (shareBack s share w) x

def contribution (t : Topology ℚ) (source x : Nat) : ℚ :=
  gain (search t source) source (search t source).taken (Array.replicate t.size 0) x

theorem foldl_gain_getElem? (s : Search ℚ) (source : Nat) (ws : List Nat) (centrality share : Array ℚ) (x : Nat) :
    (ws.foldl
      (fun (state : Array ℚ × Array ℚ) w =>
        (if w = source then state.1
          else state.1.modify w (· + (shareBack s state.2 w).getD w zero), shareBack s state.2 w))
      (centrality, share)).1[x]? = centrality[x]?.map (· + gain s source ws share x) := by
  induction ws generalizing centrality share with
  | nil => simp [gain]
  | cons w ws ih =>
    rw [List.foldl_cons, ih]
    by_cases hw : w = source
    · simp [gain, hw]
    · by_cases hx : w = x
      · subst hx
        simp [gain, hw, Array.getElem?_modify, Function.comp_def, add_assoc]
      · simp [gain, hw, hx, Array.getElem?_modify]

theorem accumulate_getElem? (t : Topology ℚ) (centrality : Array ℚ) (source x : Nat) :
    (accumulate t centrality source)[x]? = centrality[x]?.map (· + contribution t source x) := by
  exact foldl_gain_getElem? (search t source) source _ centrality _ x

theorem foldl_accumulate_getElem? (t : Topology ℚ) (sources : List Nat) (centrality : Array ℚ) (x : Nat) :
    (sources.foldl (accumulate t) centrality)[x]? =
      centrality[x]?.map (· + (sources.map fun source => contribution t source x).sum) := by
  induction sources generalizing centrality with
  | nil => simp
  | cons source sources ih =>
    rw [List.foldl_cons, ih, accumulate_getElem?]
    simp [Function.comp_def, add_assoc]

theorem compute_getElem? (t : Topology ℚ) (x : Nat) :
    (compute t)[x]? = if x < t.size then
        some ((List.range t.size).map fun source => contribution t source x).sum else none := by
  unfold compute
  rw [Array.getElem?_toList, foldl_accumulate_getElem?, Array.getElem?_replicate]
  split
  · simp
  · rfl

section Renaming

variable {σ : Equiv.Perm Nat} {t t' : Topology ℚ}

theorem gain_renamed {s s' : Search ℚ} (h : Search.Renames σ s s') (source : Nat) (ws : List Nat)
    {share share' : Array ℚ} (hs : Mirrors σ share share') (x : Nat) :
    gain s' (σ source) (ws.map σ) share' (σ x) = gain s source ws share x := by
  induction ws generalizing share share' with
  | nil => rfl
  | cons w ws ih =>
    have hshare := shareBack_renamed h hs w
    simp only [List.map_cons, gain, ih hshare, hshare.getD w 0, ne_eq, σ.injective.eq_iff]

theorem contribution_renamed (ht : t.Renames σ t') (source x : Nat) :
    contribution t' (σ source) (σ x) = contribution t source x := by
  have hsearch := search_renamed ht source
  rw [contribution, contribution, hsearch.taken, ht.size_eq]
  exact gain_renamed hsearch source _ (Mirrors.replicate ht.lt_iff 0) x

theorem compute_renamed (ht : t.Renames σ t') : Arranged σ (compute t) (compute t') := by
  intro x
  have hsum := (ht.range_perm.map fun source => contribution t' source (σ x)).sum_eq
  rw [compute_getElem?, compute_getElem?, ht.size_eq, ← hsum]
  simp only [ht.lt_iff x, List.map_map, Function.comp_def, contribution_renamed ht]

end Renaming

end ModuleGraph.Betweenness
