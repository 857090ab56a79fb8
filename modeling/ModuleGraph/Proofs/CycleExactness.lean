import ModuleGraph.Proofs.Renaming

namespace ModuleGraph

namespace Arc

variable {K : Type}

def Links (n : Nat) (arcs : List (Arc K)) (v w : Nat) : Prop :=
  v < n ∧ w < n ∧ ∃ a ∈ arcs, a.source = v ∧ a.target = w

/-- Two nodes that can be reached from each other along arcs in range. -/
def Tied (n : Nat) (arcs : List (Arc K)) (v w : Nat) : Prop :=
  Relation.ReflTransGen (Links n arcs) v w ∧ Relation.ReflTransGen (Links n arcs) w v

/-- A strongly connected component: all nodes that are tied to one node. -/
def IsComponent (n : Nat) (arcs : List (Arc K)) (members : Finset Nat) : Prop :=
  ∃ v < n, ∀ w, w ∈ members ↔ Tied n arcs v w

/-- A component with two or more members, or of a single node with an arc to itself. -/
def IsCyclicComponent (n : Nat) (arcs : List (Arc K)) (members : Finset Nat) : Prop :=
  IsComponent n arcs members ∧ (2 ≤ members.card ∨ ∃ v, members = {v} ∧ Links n arcs v v)

variable {n : Nat} {arcs : List (Arc K)}

theorem mem_successors_iff_links {v w : Nat} : w ∈ (Topology.ofArcs n arcs).successors v ↔ Links n arcs v w := by
  constructor
  · intro h
    have hv : v < n := by simpa using Topology.lt_size_of_mem_successors h
    obtain ⟨a, ha, hs, ht, hw⟩ := (Topology.mem_successors_ofArcs hv).mp h
    exact ⟨hv, hw, a, ha, hs, ht⟩
  · intro ⟨hv, hw, a, ha, hs, ht⟩
    exact (Topology.mem_successors_ofArcs hv).mpr ⟨a, ha, hs, ht, hw⟩

theorem mutual_iff_tied {v w : Nat} : (Topology.ofArcs n arcs).Mutual v w ↔ Tied n arcs v w := by
  unfold Topology.Mutual Topology.Reaches Tied
  simp only [mem_successors_iff_links]

theorem isCyclicComponent_of_isCycle {c : List Nat} (hc : (Topology.ofArcs n arcs).IsCycle c) :
    IsCyclicComponent n arcs c.toFinset := by
  obtain ⟨_, r, hr, hmem⟩ := hc
  have hclass : ∀ w, w ∈ c.toFinset ↔ Tied n arcs r w := fun w => by
    rw [List.mem_toFinset, hmem w, mutual_iff_tied]
  have hrc : r ∈ c.toFinset := (hclass r).mpr ⟨.refl, .refl⟩
  refine ⟨⟨r, by simpa using hr.lt_size, hclass⟩, ?_⟩
  by_cases hcard : 2 ≤ c.toFinset.card
  · exact .inl hcard
  · have hpos := Finset.card_pos.mpr ⟨r, hrc⟩
    obtain ⟨x, hx⟩ := Finset.card_eq_one.mp (show c.toFinset.card = 1 by omega)
    obtain rfl : r = x := by simpa [hx] using hrc
    refine .inr ⟨r, hx, ?_⟩
    rcases hr with hself | ⟨w, hw, hmut⟩
    · exact mem_successors_iff_links.mp hself
    · have hwc := (hclass w).mpr (mutual_iff_tied.mp hmut)
      rw [hx] at hwc
      exact absurd (Finset.mem_singleton.mp hwc) hw

theorem isCycle_toList {members : Finset Nat} (h : IsCyclicComponent n arcs members) :
    (Topology.ofArcs n arcs).IsCycle members.toList := by
  obtain ⟨⟨v, _, hclass⟩, hcyclic⟩ := h
  have hv : v ∈ members := (hclass v).mpr ⟨.refl, .refl⟩
  refine ⟨members.nodup_toList, v, ?_, ?_⟩
  · rcases hcyclic with hcard | ⟨u, hu, hself⟩
    · obtain ⟨w, hw, hwv⟩ := Finset.exists_mem_ne hcard v
      exact .inr ⟨w, hwv, mutual_iff_tied.mpr ((hclass w).mp hw)⟩
    · rw [hu] at hv
      rw [Finset.mem_singleton.mp hv]
      exact .inl (mem_successors_iff_links.mpr hself)
  · intro w
    rw [Finset.mem_toList, hclass w, mutual_iff_tied]

end Arc

namespace Component

variable {K : Type}

/-- Lists of nodes that are the cyclic components of some arcs, each once. -/
structure ListsCycles (n : Nat) (arcs : List (Arc K)) (found : List (List Nat)) : Prop where
  nodup : ∀ c ∈ found, c.Nodup
  component : ∀ c ∈ found, Arc.IsCyclicComponent n arcs c.toFinset
  complete : ∀ members, Arc.IsCyclicComponent n arcs members → (found.map List.toFinset).count members = 1
  disjoint : found.Pairwise List.Disjoint

/-- The search finds the strongly connected components with two or more members or an arc from a node to itself,
each of them once, as lists that share no node. -/
theorem cycles_listsCycles (n : Nat) (arcs : List (Arc K)) : ListsCycles n arcs (cycles (.ofArcs n arcs)) := by
  have ht : (Topology.ofArcs n arcs).Bounded := Topology.bounded_ofArcs n arcs
  refine { nodup := ?_, component := ?_, complete := ?_, disjoint := ?_ }
  · intro c hc
    exact (isCycle_of_mem_cycles ht hc).1
  · intro c hc
    exact Arc.isCyclicComponent_of_isCycle (isCycle_of_mem_cycles ht hc)
  · intro members h
    have hmem := (mem_map_toFinset_cycles ht).mpr ⟨_, Arc.isCycle_toList h, members.toList_toFinset⟩
    exact List.count_eq_one_of_mem (nodup_map_toFinset_cycles ht) hmem
  · refine (cycles_pairwise ht).imp ?_
    intro earlier later hapart x hx hy
    exact hapart x hx x hy (.refl x)

example : cycles (.ofArcs 4 [⟨0, 1, ()⟩, ⟨1, 0, ()⟩, ⟨0, 1, ()⟩, ⟨1, 2, ()⟩, ⟨2, 2, ()⟩, ⟨3, 0, ()⟩, ⟨0, 9, ()⟩]) =
    [[2], [0, 1]] := by
  decide +kernel

end Component

end ModuleGraph
