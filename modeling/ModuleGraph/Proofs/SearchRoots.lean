import ModuleGraph.Proofs.CycleExactness
import ModuleGraph.Proofs.SearchLoop

namespace ModuleGraph

theorem Topology.DepthFirst.reached {K : Type} {t : Topology K} {listed vs order : List Nat}
    (h : t.DepthFirst listed vs order) : ∀ x ∈ order, x ∈ listed ∨ ∃ w ∈ vs, t.Reaches w x := by
  induction h with
  | done => exact fun x hx => .inl hx
  | @skip _ v _ _ _ _ ih =>
    intro x hx
    refine (ih x hx).imp_right ?_
    rintro ⟨w, hw, hr⟩
    exact ⟨w, List.mem_cons_of_mem v hw, hr⟩
  | @enter _ v _ _ _ _ _ _ ih ih' =>
    intro x hx
    rcases ih' x hx with hx | ⟨w, hw, hr⟩
    · rcases ih x hx with hx | ⟨w, hw, hr⟩
      · rcases List.mem_append.mp hx with hx | hx
        · exact .inl hx
        · exact .inr ⟨v, List.mem_cons_self, List.mem_singleton.mp hx ▸ .refl x⟩
      · exact .inr ⟨v, List.mem_cons_self, (Reaches.of_mem hw).trans hr⟩
    · exact .inr ⟨w, List.mem_cons_of_mem v hw, hr⟩

namespace Component

open Search

variable {K : Type} {t : Topology K} {s : Search} {v r : Nat}

/-- The state of the search after as many roots. The one after a root for every node is the state that the cycles are read
from. -/
def afterRoots (t : Topology K) (roots : Nat) : Search :=
  (List.range roots).foldl (visitRoot t) (.start t.size)

theorem afterRoots_succ (t : Topology K) (r : Nat) : afterRoots t (r + 1) = visitRoot t (afterRoots t r) r := by
  rw [afterRoots, List.range_succ, List.foldl_append]
  rfl

/-- What the loop does for a root: nothing if the root has a number. Otherwise it discovers the root and takes turns until
no call is left, one for each node that gets a number and one for each edge that leaves such a node. -/
inductive Loop.Searches (t : Topology K) (s : Search) (root : Nat) : Search → Prop
  | known {number} : s.index[root]? = some (some number) → Searches t s root s
  | new {opened closed turns} : s.index[root]? = some none → s.discover? root = some opened →
      run t turns ⟨[(root, 0)], opened⟩ = some ⟨[], closed⟩ → turns + work t s = work t closed →
        Searches t s root closed

theorem Loop.searches_visitRoot (ht : t.Bounded) (hs : Invariant t [] s) (hv : v < t.size) :
    Loop.Searches t s v (visitRoot t s v) := by
  rw [visitRoot]
  by_cases hseen : s.Seen v
  · rw [if_neg hseen]
    exact .known (index?_of_seen hseen)
  · obtain ⟨turns, hrun, hwork⟩ := (callsInTurns t).visit ht (.root hs hv hseen) (Nat.le_add_right _ _) [] rfl
    rw [if_pos (not_not.mp hseen)]
    exact .new (index?_of_not_seen hs.toNumbered hv hseen) (discover?_eq hs.toNumbered hv) hrun hwork

/-- A state without open nodes in which the nodes that the roots below `r` reach are numbered, each with a number of its
own and no number left out. -/
structure Clean (n : Nat) (arcs : List (Arc K)) (r : Nat) (s : Search) : Prop where
  stack_eq : s.stack = []
  onStack_eq : s.onStack = Array.replicate n false
  numbered_iff : ∀ v, (s.discovery? v).isSome ↔ ∃ root < r, Relation.ReflTransGen (Arc.Links n arcs) root v
  number_lt : ∀ v k, s.discovery? v = some k → k < s.nextIndex
  number_once : ∀ k < s.nextIndex, ∃! v, s.discovery? v = some k

theorem onStack_eq_replicate (hs : Invariant t [] s) : s.onStack = Array.replicate t.size false := by
  refine Array.ext (by rw [hs.onStack_size, Array.size_replicate]) fun v hv _ => ?_
  have hflag : s.onStack.getD v false ≠ true := by
    rw [ne_eq, hs.onStack_iff, hs.stack_eq_nil]
    exact List.not_mem_nil
  rw [Array.getElem_replicate]
  simpa [hv] using hflag

theorem invariant_afterRoots (ht : t.Bounded) (hr : r ≤ t.size) :
    Invariant t [] (afterRoots t r) ∧ ∀ root < r, (afterRoots t r).Seen root := by
  obtain ⟨hinv, hseen, _⟩ :=
    foldl_visitRoot ht (fun _ h => (List.mem_range.mp h).trans_le hr) (invariant_start t)
  exact ⟨hinv, fun root hroot => hseen root (List.mem_range.mpr hroot)⟩

theorem discovered_afterRoots (ht : t.Bounded) (hr : r ≤ t.size) :
    ∃ order, t.DepthFirst [] (List.range r) order ∧ Discovered t (afterRoots t r) order :=
  (Discovered.start t).foldl_visitRoot ht (fun _ h => (List.mem_range.mp h).trans_le hr) (invariant_start t)

theorem seen_afterRoots_iff (ht : t.Bounded) (hr : r ≤ t.size) (v : Nat) :
    (afterRoots t r).Seen v ↔ ∃ root < r, t.Reaches root v := by
  constructor
  · intro hseen
    obtain ⟨order, hfound, hdiscovered⟩ := discovered_afterRoots ht hr
    rcases hfound.reached v (hdiscovered.mem_iff.mpr hseen) with hnone | ⟨root, hroot, hreach⟩
    · exact absurd hnone List.not_mem_nil
    · exact ⟨root, List.mem_range.mp hroot, hreach⟩
  · rintro ⟨root, hroot, hreach⟩
    obtain ⟨hinv, hseen⟩ := invariant_afterRoots ht hr
    have hclosed : (afterRoots t r).Closed root :=
      ⟨hseen root hroot, by rw [hinv.stack_eq_nil]; exact List.not_mem_nil⟩
    exact (hinv.closed_of_reaches hclosed hreach).1

theorem clean_afterRoots (n : Nat) (arcs : List (Arc K)) (hr : r ≤ n) :
    Clean n arcs r (afterRoots (.ofArcs n arcs) r) := by
  have ht := Topology.bounded_ofArcs n arcs
  have hsize := Topology.size_ofArcs n arcs
  have hr' : r ≤ (Topology.ofArcs n arcs).size := by rw [hsize]; exact hr
  obtain ⟨hinv, _⟩ := invariant_afterRoots ht hr'
  obtain ⟨order, _, hdiscovered⟩ := discovered_afterRoots ht hr'
  have hnumber : ∀ v k, (afterRoots (.ofArcs n arcs) r).discovery? v = some k ↔ order[k]? = some v := by
    intro v k
    rw [discovery?_eq_getD, hdiscovered.index_iff]
  refine ⟨hinv.stack_eq_nil, (onStack_eq_replicate hinv).trans (by rw [hsize]), ?_, ?_, ?_⟩
  · intro v
    have hseen := seen_afterRoots_iff ht hr' v
    unfold Topology.Reaches at hseen
    simp only [Arc.mem_successors_iff_links] at hseen
    rw [discovery?_eq_getD, Option.isSome_iff_ne_none]
    exact hseen
  · intro v k hk
    rw [← hdiscovered.length_eq]
    exact (List.getElem?_eq_some_iff.mp ((hnumber v k).mp hk)).1
  · intro k hk
    rw [← hdiscovered.length_eq] at hk
    refine ⟨order[k], (hnumber _ k).mpr (List.getElem?_eq_getElem hk), fun v hv => ?_⟩
    exact (List.getElem?_eq_some_iff.mp ((hnumber v k).mp hv)).2.symm

/-- For every root the loop ends without looking outside its arrays and without asking for a number that was not given,
in the state of the recursive search, and leaves that state clean. -/
theorem root_leaves_clean (n : Nat) (arcs : List (Arc K)) (hr : r < n) :
    Loop.Searches (.ofArcs n arcs) (afterRoots (.ofArcs n arcs) r) r (afterRoots (.ofArcs n arcs) (r + 1)) ∧
      Clean n arcs (r + 1) (afterRoots (.ofArcs n arcs) (r + 1)) := by
  have ht := Topology.bounded_ofArcs n arcs
  have hr' : r < (Topology.ofArcs n arcs).size := by rw [Topology.size_ofArcs]; exact hr
  refine ⟨?_, clean_afterRoots n arcs hr⟩
  rw [afterRoots_succ]
  exact Loop.searches_visitRoot ht (invariant_afterRoots ht hr'.le).1 hr'

/-- The fourth root is not on the cycle of the first three nodes but has an edge to it, and one to a node that is a cycle
of its own. -/
theorem root_leaves_clean_beside_cycle :
    let arcs : List (Arc Unit) := [⟨0, 1, ()⟩, ⟨1, 2, ()⟩, ⟨2, 0, ()⟩, ⟨3, 1, ()⟩, ⟨3, 4, ()⟩, ⟨4, 4, ()⟩]
    3 < 5 ∧ (afterRoots (.ofArcs 5 arcs) 3).index = #[some 0, some 1, some 2, none, none] ∧
      (afterRoots (.ofArcs 5 arcs) 4).index = #[some 0, some 1, some 2, some 3, some 4] ∧
        Loop.Searches (.ofArcs 5 arcs) (afterRoots (.ofArcs 5 arcs) 3) 3 (afterRoots (.ofArcs 5 arcs) 4) ∧
          Clean 5 arcs 4 (afterRoots (.ofArcs 5 arcs) 4) := by
  intro arcs
  exact ⟨by decide, by decide +kernel, by decide +kernel, root_leaves_clean 5 arcs (by decide)⟩

end Component

end ModuleGraph
