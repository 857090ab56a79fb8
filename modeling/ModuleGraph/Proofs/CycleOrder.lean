import ModuleGraph.Proofs.CycleExactness
import ModuleGraph.Proofs.DepthFirst

namespace ModuleGraph

namespace Topology

variable {K : Type} {t : Topology K} {c c' : List Nat} {v : Nat}

/-- An edge from an earlier node of the list leads to every node but the first. -/
def Unfolds (t : Topology K) (c : List Nat) : Prop :=
  ∀ before w after, c = before ++ w :: after → before ≠ [] → ∃ v ∈ before, w ∈ t.successors v

theorem unfolds_nil (t : Topology K) : t.Unfolds [] := by
  intro before w after h
  simp at h

theorem unfolds_singleton (t : Topology K) (v : Nat) : t.Unfolds [v] := by
  intro before w after h hne
  cases before with
  | nil => exact absurd rfl hne
  | cons x before => simp at h

theorem Unfolds.append (h : t.Unfolds c) (h' : t.Unfolds c')
    (hlink : ∀ w ∈ c'.head?, ∃ v ∈ c, w ∈ t.successors v) : t.Unfolds (c ++ c') := by
  intro before w after heq hne
  rcases List.append_eq_append_iff.mp heq with ⟨mid, rfl, hc'⟩ | ⟨mid, rfl, hmid⟩
  · cases mid with
    | nil =>
      obtain ⟨v, hv, hw⟩ := hlink w (by rw [hc']; simp)
      exact ⟨v, List.mem_append_left [] hv, hw⟩
    | cons x mid =>
      obtain ⟨v, hv, hw⟩ := h' (x :: mid) w after hc' (List.cons_ne_nil x mid)
      exact ⟨v, List.mem_append_right c hv, hw⟩
  · cases mid with
    | nil =>
      rw [List.nil_append] at hmid
      obtain ⟨v, hv, hw⟩ := hlink w (by rw [← hmid]; simp)
      rw [List.append_nil] at hv
      exact ⟨v, hv, hw⟩
    | cons x mid =>
      obtain ⟨rfl, hafter⟩ := List.cons_eq_cons.mp hmid
      exact h before w mid rfl hne

end Topology

namespace Component.Search

variable {K : Type} {t : Topology K} {calls done seg order : List Nat} {s s₁ : Search} {v w : Nat}

/-- The members of every cycle found so far are in the order of discovery and unfold from the first one. -/
structure Ordered (t : Topology K) (s : Search) : Prop where
  rising : ∀ c ∈ s.cycles, c.Pairwise fun x y => s.discovery x < s.discovery y
  unfolds : ∀ c ∈ s.cycles, t.Unfolds c

theorem Ordered.discover (h : Ordered t s) (hs : Invariant t calls s) (hnew : ¬ s.Seen v) :
    Ordered t (s.discover v) where
  rising := by
    intro c hc
    refine (h.rising c hc).imp_of_mem ?_
    intro x y hx hy hlt
    rw [discovery_discover_of_seen hnew (hs.closed c hc x hx).1, discovery_discover_of_seen hnew (hs.closed c hc y hy).1]
    exact hlt
  unfolds := h.unfolds

theorem Ordered.lower (h : Ordered t s) (v k : Nat) : Ordered t (s.lower v k) :=
  ⟨h.rising, h.unfolds⟩

/-- What a call for a node leaves behind: ordered cycles, and on the stack a piece that unfolds from the node, or
nothing. -/
structure Unrolled (t : Topology K) (s : Search) (v : Nat) (s₁ : Search) : Prop where
  ordered : Ordered t s₁
  piece : ∃ seg, s₁.stack = seg.reverse ++ s.stack ∧ t.Unfolds seg ∧ ∀ w ∈ seg.head?, w = v

/-- The state within a call: the piece on the stack starts with the node of the call. -/
structure Unrolling (t : Topology K) (s : Search) (v : Nat) (s₁ : Search) : Prop where
  ordered : Ordered t s₁
  piece : ∃ seg, s₁.stack = (v :: seg).reverse ++ s.stack ∧ t.Unfolds (v :: seg)

theorem Ordered.close (h : Ordered t s₁) (hs : Invariant t calls s₁)
    (hstack : s₁.stack = (v :: seg).reverse ++ s.stack) (hv : v ∉ seg) (hseg : t.Unfolds (v :: seg)) :
    Ordered t (s₁.close t v) := by
  have hpiece : s₁.stack = seg.reverse ++ v :: s.stack := by simpa using hstack
  have hsorted : (v :: seg).Pairwise fun x y => s₁.discovery x < s₁.discovery y := by
    have hall := hs.stack_sorted
    rw [hstack] at hall
    exact List.pairwise_reverse.mp (List.pairwise_append.mp hall).1
  have hmembers : sortOn s₁.discovery (seg.reverse ++ [v]).reverse = v :: seg := by
    rw [List.reverse_append, List.reverse_reverse]
    exact sortOn_of_pairwise (hsorted.imp Nat.le_of_lt)
  rw [close_eq hpiece (by simpa using hv), hmembers]
  constructor
  · intro c hc
    show c.Pairwise fun x y => s₁.discovery x < s₁.discovery y
    dsimp only at hc
    split at hc
    · rcases List.mem_cons.mp hc with rfl | hc
      · exact hsorted
      · exact h.rising c hc
    · exact h.rising c hc
  · intro c hc
    dsimp only at hc
    split at hc
    · rcases List.mem_cons.mp hc with rfl | hc
      · exact hseg
      · exact h.unfolds c hc
    · exact h.unfolds c hc

theorem Unrolling.finish (h : Unrolling t s v s₁) (hs : Invariant t calls s₁) : Unrolled t s v (s₁.finish t v) := by
  obtain ⟨seg, hstack, hseg⟩ := h.piece
  have hv : v ∉ seg := by
    have hnodup := hs.stack_nodup
    rw [hstack, List.nodup_append, List.nodup_reverse, List.nodup_cons] at hnodup
    exact hnodup.1.1
  unfold Search.finish
  split
  · have hpiece : s₁.stack = seg.reverse ++ v :: s.stack := by simpa using hstack
    refine ⟨h.ordered.close hs hstack hv hseg, [], ?_, t.unfolds_nil, by simp⟩
    rw [close_eq hpiece (by simpa using hv)]
    rfl
  · exact ⟨h.ordered, v :: seg, hstack, hseg, by simp⟩

theorem unrolls (t : Topology K) : VisitRules t (fun _ s v _ s₁ => Ordered t s → Unrolling t s v s₁)
    (fun _ s v s₁ => Ordered t s → Unrolled t s v s₁) where
  start h ho := ⟨ho.discover h.invariant h.unseen, [], rfl, t.unfolds_singleton _⟩
  skip _ _ _ _ hwithin ho := by
    have h := hwithin ho
    split
    · exact ⟨h.ordered.lower _ _, h.piece⟩
    · exact h
  enter {_ s v _ s₁ w s₂} _ _ hw hwithin hdone ho := by
    have h := hwithin ho
    have hvisit := hdone h.ordered
    obtain ⟨seg, hstack, hseg⟩ := h.piece
    obtain ⟨seg', hstack', hseg', hhead⟩ := hvisit.piece
    refine ⟨hvisit.ordered.lower v _, seg ++ seg', ?_, ?_⟩
    · show s₂.stack = (v :: (seg ++ seg')).reverse ++ s.stack
      rw [hstack', hstack]
      simp
    · apply hseg.append hseg'
      intro x hx
      exact ⟨v, List.mem_cons_self, hhead x hx ▸ hw.subset (by simp)⟩
  finish _ he hwithin ho := (hwithin ho).finish he.invariant

theorem Ordered.foldl_visitRoot (ht : t.Bounded) {roots : List Nat} (hroots : ∀ v ∈ roots, v < t.size)
    (hs : Invariant t [] s) (h : Ordered t s) : Ordered t (roots.foldl (visitRoot t) s) := by
  induction roots generalizing s with
  | nil => exact h
  | cons r roots ih =>
    obtain ⟨hr, hroots⟩ := List.forall_mem_cons.mp hroots
    refine ih hroots (hs.visitRoot ht hr).1 ?_
    rw [visitRoot]
    split
    case isTrue hunseen =>
      have hcan : CanVisit t [] s r := .root hs hr fun hseen => hseen hunseen
      exact ((unrolls t).visit ht hcan (Nat.le_add_right _ _) h).ordered
    case isFalse => exact h

theorem Discovered.sublist {c : List Nat} (h : Discovered t s order) (hseen : ∀ x ∈ c, s.Seen x)
    (hc : c.Pairwise fun x y => s.discovery x < s.discovery y) : c.Sublist order := by
  have hnumber : ∀ k x, order[k]? = some x → s.discovery x = k := by
    intro k x hk
    have hindex := (h.index_iff x k).mpr hk
    rw [discovery, hindex]
    rfl
  have horder : order.Pairwise fun x y => s.discovery x < s.discovery y := by
    rw [List.pairwise_iff_getElem]
    intro i j hi hj hij
    rw [hnumber i _ (List.getElem?_eq_getElem hi), hnumber j _ (List.getElem?_eq_getElem hj)]
    exact hij
  have hanti : Std.Antisymm fun x y => s.discovery x < s.discovery y :=
    ⟨fun x y hxy hyx => absurd (hxy.trans hyx) (Nat.lt_irrefl _)⟩
  have hnodup : c.Nodup := hc.imp fun hlt heq => absurd (heq ▸ hlt) (Nat.lt_irrefl _)
  exact List.sublist_of_subperm_of_pairwise
    (List.subperm_of_subset hnodup fun x hx => h.mem_iff.mpr (hseen x hx)) hc horder

end Component.Search

namespace Component

variable {K : Type}

/-- Of two cycles at different places, the one that the other one reaches along arcs comes first. -/
theorem cycles_reached_first (n : Nat) (arcs : List (Arc K)) {i j : Nat} {c c' : List Nat}
    (hc : (cycles (.ofArcs n arcs))[i]? = some c) (hc' : (cycles (.ofArcs n arcs))[j]? = some c') (hne : i ≠ j)
    {v w : Nat} (hv : v ∈ c) (hw : w ∈ c') (hr : Relation.ReflTransGen (Arc.Links n arcs) v w) : j < i := by
  have hapart := cycles_pairwise (Topology.bounded_ofArcs n arcs)
  obtain ⟨hi, rfl⟩ := List.getElem?_eq_some_iff.mp hc
  obtain ⟨hj, rfl⟩ := List.getElem?_eq_some_iff.mp hc'
  by_contra hle
  have hreaches : (Topology.ofArcs n arcs).Reaches v w := by
    unfold Topology.Reaches
    simp only [Arc.mem_successors_iff_links]
    exact hr
  exact List.pairwise_iff_getElem.mp hapart i j hi hj (by omega) v hv w hw hreaches

/-- The second cycle is found from the first one, through a node that is in no cycle, and comes first. -/
theorem cycles_reached_first_through_node :
    let arcs : List (Arc Unit) := [⟨0, 1, ()⟩, ⟨1, 0, ()⟩, ⟨1, 2, ()⟩, ⟨2, 3, ()⟩, ⟨3, 4, ()⟩, ⟨4, 3, ()⟩]
    (cycles (.ofArcs 5 arcs))[1]? = some [0, 1] ∧ (cycles (.ofArcs 5 arcs))[0]? = some [3, 4] ∧
      Relation.ReflTransGen (Arc.Links 5 arcs) 1 3 ∧ 0 < 1 := by
  intro arcs
  have hfirst : (cycles (.ofArcs 5 arcs))[1]? = some [0, 1] := by decide +kernel
  have hsecond : (cycles (.ofArcs 5 arcs))[0]? = some [3, 4] := by decide +kernel
  have hleave : Arc.Links 5 arcs 1 2 := by simp [Arc.Links, arcs]
  have henter : Arc.Links 5 arcs 2 3 := by simp [Arc.Links, arcs]
  have hpath : Relation.ReflTransGen (Arc.Links 5 arcs) 1 3 := (Relation.ReflTransGen.single hleave).tail henter
  refine ⟨hfirst, hsecond, hpath, ?_⟩
  exact cycles_reached_first 5 arcs hfirst hsecond (by omega) (v := 1) (w := 3) (by simp) (by simp) hpath

/-- The members of every cycle are listed in the preorder of the recursive depth-first search from the nodes in the
order of their numbers, which lists every node once; and an arc from an earlier member leads to each one but the
first. -/
theorem cycles_in_preorder (n : Nat) (arcs : List (Arc K)) :
    ∃ order : List Nat, (∀ found, (Topology.ofArcs n arcs).DepthFirst [] (List.range n) found ↔ found = order) ∧
      order.Perm (List.range n) ∧
        ∀ c ∈ cycles (.ofArcs n arcs), c.Sublist order ∧
          ∀ before w after, c = before ++ w :: after → before ≠ [] → ∃ v ∈ before, Arc.Links n arcs v w := by
  have ht : (Topology.ofArcs n arcs).Bounded := Topology.bounded_ofArcs n arcs
  have hsize : (Topology.ofArcs n arcs).size = n := Topology.size_ofArcs n arcs
  have hroots : ∀ v ∈ List.range (Topology.ofArcs n arcs).size, v < (Topology.ofArcs n arcs).size :=
    fun v hv => List.mem_range.mp hv
  obtain ⟨order, hfound, hdiscovered⟩ := (Search.Discovered.start (Topology.ofArcs n arcs)).foldl_visitRoot ht
    hroots (Search.invariant_start _)
  have hordered : Search.Ordered (Topology.ofArcs n arcs) (.start (Topology.ofArcs n arcs).size) :=
    ⟨fun c hc => absurd hc List.not_mem_nil, fun c hc => absurd hc List.not_mem_nil⟩
  have hfinal := hordered.foldl_visitRoot ht hroots (Search.invariant_start _)
  obtain ⟨hinv, hclosed⟩ := final_closed ht
  refine ⟨order, ?_, ?_, ?_⟩
  · rw [hsize] at hfound
    intro found
    exact ⟨fun h => h.unique hfound, fun h => h ▸ hfound⟩
  · rw [List.perm_ext_iff_of_nodup hdiscovered.nodup List.nodup_range]
    intro v
    rw [List.mem_range, ← hsize]
    exact ⟨hdiscovered.lt_size, fun hv => hdiscovered.mem_iff.mpr (hclosed v hv).1⟩
  · intro c hc
    have hc := List.mem_reverse.mp hc
    refine ⟨hdiscovered.sublist (fun x hx => (hinv.closed c hc x hx).1) (hfinal.rising c hc), ?_⟩
    intro before w after heq hne
    obtain ⟨v, hv, hw⟩ := hfinal.unfolds c hc before w after heq hne
    exact ⟨v, hv, Arc.mem_successors_iff_links.mp hw⟩

example : cycles (.ofArcs 4 [⟨3, 0, ()⟩, ⟨0, 2, ()⟩, ⟨2, 1, ()⟩, ⟨1, 0, ()⟩]) = [[0, 2, 1]] := by
  decide +kernel

end Component

end ModuleGraph
