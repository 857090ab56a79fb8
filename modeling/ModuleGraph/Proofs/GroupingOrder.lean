import ModuleGraph.Graph.Cluster
import ModuleGraph.Graph.Statistics
import ModuleGraph.Proofs.Arrangement
import ModuleGraph.Proofs.Repetition
import ModuleGraph.Proofs.SortOrder
import Mathlib.Data.List.Forall2
import Mathlib.Data.List.Perm.Basic
import Mathlib.Data.String.Basic

namespace ModuleGraph

variable {σ : Equiv.Perm Nat} {edges edges' : List (Nat × Nat)}

def renameEnds (σ : Equiv.Perm Nat) (e : Nat × Nat) : Nat × Nat :=
  (σ e.1, σ e.2)

theorem countEdge_getElem? (counts : Array Degree) (e : Nat × Nat) (i : Nat) :
    (countEdge counts e)[i]? = counts[i]?.map fun d =>
      ⟨d.incoming + (if e.2 = i then 1 else 0), d.outgoing + (if e.1 = i then 1 else 0)⟩ := by
  unfold countEdge
  simp only [Array.getElem?_modify]
  by_cases hs : e.1 = i <;> by_cases ht : e.2 = i <;> simp [hs, ht, Function.comp_def]

theorem foldl_countEdge_getElem? (edges : List (Nat × Nat)) (counts : Array Degree) (i : Nat) :
    (edges.foldl countEdge counts)[i]? = counts[i]?.map fun d =>
      ⟨d.incoming + edges.countP (·.2 == i), d.outgoing + edges.countP (·.1 == i)⟩ := by
  induction edges generalizing counts with
  | nil => simp
  | cons e edges ih =>
    rw [List.foldl_cons, ih, countEdge_getElem?]
    simp [List.countP_cons, Function.comp_def, Nat.add_assoc, Nat.add_comm]

theorem degrees_getElem? (n : Nat) (edges : List (Nat × Nat)) (i : Nat) :
    (degrees n edges)[i]? = if i < n then some ⟨edges.countP (·.2 == i), edges.countP (·.1 == i)⟩ else none := by
  rw [degrees, foldl_countEdge_getElem?, Array.getElem?_replicate]
  split
  · simp
  · rfl

theorem degrees_renamed {n : Nat} (hn : ∀ i, σ i < n ↔ i < n) (h : (edges.map (renameEnds σ)).Perm edges') :
    Mirrors σ (degrees n edges) (degrees n edges') := by
  apply Mirrors.of_getElem?
  intro i
  rw [degrees_getElem?, degrees_getElem?, ← h.countP_eq, ← h.countP_eq, List.countP_map, List.countP_map]
  simp only [hn i, renameEnds, Function.comp_def, beq_eq_decide, σ.injective.eq_iff]

namespace Cluster

theorem commonStart_comm (as bs : List String) : commonStart as bs = commonStart bs as := by
  induction as generalizing bs with
  | nil => cases bs <;> rfl
  | cons a as ih =>
    cases bs with
    | nil => rfl
    | cons b bs =>
      by_cases hab : a = b
      · simp [commonStart, hab, ih bs]
      · simp [commonStart, hab, Ne.symm hab]

theorem commonStart_assoc (as bs cs : List String) :
    commonStart (commonStart as bs) cs = commonStart as (commonStart bs cs) := by
  induction as generalizing bs cs with
  | nil => rfl
  | cons a as ih =>
    cases bs with
    | nil => rfl
    | cons b bs =>
      cases cs with
      | nil => by_cases hab : a = b <;> simp [commonStart, hab]
      | cons c cs =>
        by_cases hab : a = b <;> by_cases hbc : b = c
        · simp [commonStart, hab, hbc, ih]
        · simp [commonStart, hab, hbc]
        · simp [commonStart, hbc, hbc ▸ hab]
        · simp [commonStart, hab, hbc]

theorem commonStart_right_comm (as bs cs : List String) :
    commonStart (commonStart as bs) cs = commonStart (commonStart as cs) bs := by
  rw [commonStart_assoc, commonStart_comm bs cs, ← commonStart_assoc]

theorem sharedStart_eq_of_perm {ds ds' : List String} (h : ds.Perm ds') : sharedStart ds = sharedStart ds' := by
  have hcomm : RightCommutative fun shared d => commonStart shared (filledSegments d) :=
    ⟨fun shared d d' => commonStart_right_comm shared (filledSegments d) (filledSegments d')⟩
  induction h with
  | nil => rfl
  | cons d h _ => exact h.foldl_eq _
  | swap d d' ds =>
    simp only [sharedStart, List.foldl_cons, commonStart_comm (filledSegments d)]
  | trans _ _ ih ih' => exact ih.trans ih'

theorem suggestDomain_eq_of_perm {ds ds' : List String} (h : ds.Perm ds') (key : String) (generic : List String) :
    suggestDomain ds key generic = suggestDomain ds' key generic := by
  rw [suggestDomain, suggestDomain, sharedStart_eq_of_perm h]

theorem isPrecedence_lt : IsPrecedence fun a b : String => decide (a < b) where
  asymm a b h := decide_eq_false (not_lt.mpr (le_of_lt (of_decide_eq_true h)))
  trans a b c hab hbc := by
    have hba : b ≤ a := not_lt.mp (of_decide_eq_false hab)
    have hcb : c ≤ b := not_lt.mp (of_decide_eq_false hbc)
    exact decide_eq_false (not_lt.mpr (hcb.trans hba))

theorem names_eq_of_perm {keys keys' : List String} (h : keys.Perm keys') : names keys = names keys' := by
  have hperm : keys.eraseDups.Perm keys'.eraseDups := by
    refine (List.perm_ext_iff_of_nodup ?_ ?_).mpr fun key => ?_
    · exact eraseDups_nodup keys
    · exact eraseDups_nodup keys'
    · rw [List.mem_eraseDups, List.mem_eraseDups, h.mem_iff]
  refine isPrecedence_lt.stableSort_eq_of_perm hperm ?_
  intro a _ b _ hab hba
  exact le_antisymm (not_lt.mp (of_decide_eq_false hba)) (not_lt.mp (of_decide_eq_false hab))

/-- Two clusters with the same members in any order, and alike in everything else. -/
structure Alike (c c' : Cluster) : Prop where
  name : c.name = c'.name
  nodes : c.nodes.Perm c'.nodes
  internalEdges : c.internalEdges = c'.internalEdges
  externalEdges : c.externalEdges = c'.externalEdges
  suggestedDomain : c.suggestedDomain = c'.suggestedDomain

variable {members members' : List Member}

theorem hasKey_renamed {keys keys' : List String} (h : Arranged σ keys keys') (name : String) (i : Nat) :
    hasKey keys' name (σ i) = hasKey keys name i := by
  rw [hasKey, hasKey, h i]

theorem ofName_renamed (hm : Arranged σ members members') (he : (edges.map (renameEnds σ)).Perm edges')
    (generic : List String) (name : String) :
    Alike (ofName members edges generic name) (ofName members' edges' generic name) := by
  have hinside := hm.perm.filter fun m => key m.directory == name
  have hkeys := hm.map fun m => key m.directory
  refine
    { name := rfl
      nodes := hinside.map Member.id
      internalEdges := ?_
      externalEdges := ?_
      suggestedDomain := suggestDomain_eq_of_perm (hinside.map Member.directory) name generic }
  · simp only [ofName, countInternal, ← he.countP_eq, List.countP_map, Function.comp_def, renameEnds,
      hasKey_renamed hkeys]
  · simp only [ofName, countExternal, ← he.countP_eq, List.countP_map, Function.comp_def, renameEnds,
      hasKey_renamed hkeys]

theorem group_renamed (hm : Arranged σ members members') (he : (edges.map (renameEnds σ)).Perm edges')
    (generic : List String) :
    List.Forall₂ Alike (group members edges generic).1 (group members' edges' generic).1 := by
  have hnames := names_eq_of_perm (hm.map fun m => key m.directory).perm
  simp only [group, ← hnames]
  rw [List.forall₂_map_left_iff, List.forall₂_map_right_iff]
  exact List.forall₂_same.mpr fun name _ => ofName_renamed hm he generic name

end Cluster

theorem Statistics.averageDegree_eq_of_perm {K : Type} [Scalar K] {ds ds' : List Nat} (h : ds.Perm ds') :
    (averageDegree ds : K) = averageDegree ds' := by
  have hsum : ds.foldr (· + ·) 0 = ds'.foldr (· + ·) 0 := h.foldr_eq 0
  rw [averageDegree, averageDegree, h.length_eq, hsum]

theorem Statistics.compute_eq_of_perm {K : Type} [Scalar K] {ms ms' : List (NodeMetrics K)} (h : ms.Perm ms')
    (edgeCount clusterCount cycleCount : Nat) :
    Statistics.compute ms edgeCount clusterCount cycleCount =
      Statistics.compute ms' edgeCount clusterCount cycleCount := by
  rw [Statistics.compute, Statistics.compute, averageDegree_eq_of_perm (h.map NodeMetrics.degree), h.length_eq]

end ModuleGraph
