import ModuleGraph.PageRank
import ModuleGraph.Proofs.ExactNumbers
import ModuleGraph.Proofs.Renaming
import Mathlib.Algebra.BigOperators.Group.List.Lemmas

namespace ModuleGraph.PageRank

open Scalar

variable {σ : Equiv.Perm Nat} {t t' : Topology ℚ} {ranks ranks' : List ℚ}

def flow (t : Topology ℚ) (damping : ℚ) (v : Nat) (rank : ℚ) (w : Nat) : ℚ :=
  if isDangling t v then 0
  else ((t.weightedSuccessors v).map fun e => if e.1 = w then damping * rank * e.2 / t.outWeight v else 0).sum

theorem foldl_modify_getElem? (es : List (Nat × ℚ)) (share : ℚ → ℚ) (next : Array ℚ) (w : Nat) :
    (es.foldl (fun next e => next.modify e.1 (· + share e.2)) next)[w]? =
      next[w]?.map (· + (es.map fun e => if e.1 = w then share e.2 else 0).sum) := by
  induction es generalizing next with
  | nil => simp
  | cons e es ih =>
    rw [List.foldl_cons, ih, Array.getElem?_modify]
    by_cases he : e.1 = w
    · simp [he, Function.comp_def, add_assoc]
    · simp [he]

theorem passOn_getElem? (t : Topology ℚ) (damping : ℚ) (next : Array ℚ) (v : Nat) (rank : ℚ) (w : Nat) :
    (passOn t damping next v rank)[w]? = next[w]?.map (· + flow t damping v rank w) := by
  by_cases hdangling : atMost (t.outWeight v) zero = true
  · simp only [passOn, flow, isDangling, hdangling, if_true]
    simp
  · simp only [passOn, flow, isDangling, hdangling]
    exact foldl_modify_getElem? _ (fun weight => damping * rank * weight / t.outWeight v) next w

theorem foldl_passOn_getElem? (t : Topology ℚ) (damping : ℚ) (rs : List (ℚ × Nat)) (next : Array ℚ) (w : Nat) :
    (rs.foldl (fun next r => passOn t damping next r.2 r.1) next)[w]? =
      next[w]?.map (· + (rs.map fun r => flow t damping r.2 r.1 w).sum) := by
  induction rs generalizing next with
  | nil => simp
  | cons r rs ih =>
    rw [List.foldl_cons, ih, passOn_getElem?]
    simp [Function.comp_def, add_assoc]

theorem iterate_getElem? (t : Topology ℚ) (damping : ℚ) (ranks : List ℚ) (w : Nat) :
    (iterate t damping ranks)[w]? = if w < ranks.length then
        some (baseRank t damping ranks + (ranks.zipIdx.map fun r => flow t damping r.2 r.1 w).sum)
      else none := by
  unfold iterate
  rw [Array.getElem?_toList, foldl_passOn_getElem?, Array.getElem?_replicate]
  split
  · rfl
  · rfl

section Renaming

variable (h : t.Renames σ t')
include h

theorem outWeight_renamed (v : Nat) : t'.outWeight (σ v) = t.outWeight v := by
  simp [Topology.outWeight, h.edges v, Function.comp_def]

theorem isDangling_renamed (v : Nat) : isDangling t' (σ v) = isDangling t v := by
  rw [isDangling, isDangling, outWeight_renamed h]

theorem flow_renamed (damping : ℚ) (v : Nat) (rank : ℚ) (w : Nat) :
    flow t' damping (σ v) rank (σ w) = flow t damping v rank w := by
  simp [flow, isDangling_renamed h, outWeight_renamed h, h.edges v, Function.comp_def]

theorem danglingRank_renamed (hr : Arranged σ ranks ranks') : danglingRank t' ranks' = danglingRank t ranks := by
  have hperm := (hr.zipIdx_perm.filter fun r => isDangling t' r.2).map (·.1)
  simp only [danglingRank, rat_sum]
  rw [← hperm.sum_eq]
  simp [List.filter_map, isDangling_renamed h, Function.comp_def]

theorem baseRank_renamed (damping : ℚ) (hr : Arranged σ ranks ranks') :
    baseRank t' damping ranks' = baseRank t damping ranks := by
  rw [baseRank, baseRank, danglingRank_renamed h hr, h.size_eq]

theorem iterate_renamed (damping : ℚ) (hr : Arranged σ ranks ranks') :
    Arranged σ (iterate t damping ranks) (iterate t' damping ranks') := by
  intro w
  have hflow := (hr.zipIdx_perm.map fun r => flow t' damping r.2 r.1 (σ w)).sum_eq
  rw [iterate_getElem?, iterate_getElem?, baseRank_renamed h damping hr, ← hflow]
  simp only [hr.lt_iff w, List.map_map, Function.comp_def, flow_renamed h]

omit h in
theorem maxDelta_renamed {next next' : List ℚ} (hr : Arranged σ ranks ranks') (hn : Arranged σ next next') :
    maxDelta ranks' next' = maxDelta ranks next := by
  have hperm := (hr.zipWith hn fun x y => Scalar.abs (x - y)).perm
  have hcomm : RightCommutative (larger : ℚ → ℚ → ℚ) := ⟨fun a b c => max_right_comm a b c⟩
  exact (hperm.foldl_eq _).symm

theorem settle_renamed (damping tolerance : ℚ) (left : Nat) (hr : Arranged σ ranks ranks') :
    Arranged σ (settle t damping tolerance left ranks) (settle t' damping tolerance left ranks') := by
  induction left generalizing ranks ranks' with
  | zero => exact hr
  | succ left ih =>
    have hn := iterate_renamed h damping hr
    rw [settle, settle, maxDelta_renamed hr hn]
    split
    · exact hn
    · exact ih hn

omit h in
theorem normalize_renamed (hr : Arranged σ ranks ranks') : Arranged σ (normalize ranks) (normalize ranks') := by
  rw [normalize, normalize, rat_sum, rat_sum, hr.perm.sum_eq]
  split
  · exact hr.map _
  · exact hr

theorem compute_renamed (p : Parameters ℚ) : Arranged σ (compute t p) (compute t' p) := by
  rw [compute, compute, h.size_eq]
  split
  · exact fun i => rfl
  · apply normalize_renamed
    apply settle_renamed h
    intro i
    simp [List.getElem?_replicate, h.lt_iff i]

end Renaming

end ModuleGraph.PageRank
