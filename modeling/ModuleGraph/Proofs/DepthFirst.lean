import ModuleGraph.Proofs.ComponentCycles

namespace ModuleGraph

/-- The recursive depth-first search. With some nodes listed, it goes through a list of nodes: one that is listed is
passed over, any other one is listed, and its successors are gone through before the search moves on. -/
inductive Topology.DepthFirst {K : Type} (t : Topology K) : List Nat → List Nat → List Nat → Prop
  | done {listed} : DepthFirst t listed [] listed
  | skip {listed v vs order} : v ∈ listed → DepthFirst t listed vs order → DepthFirst t listed (v :: vs) order
  | enter {listed v vs found order} : v ∉ listed → DepthFirst t (listed ++ [v]) (t.successors v) found →
      DepthFirst t found vs order → DepthFirst t listed (v :: vs) order

namespace Topology.DepthFirst

variable {K : Type} {t : Topology K} {listed vs ws found order order' : List Nat}

theorem unique (h : t.DepthFirst listed vs order) (h' : t.DepthFirst listed vs order') : order = order' := by
  induction h generalizing order' with
  | done =>
    cases h'
    rfl
  | skip hv _ ih =>
    cases h' with
    | skip _ h' => exact ih h'
    | enter hv' => exact absurd hv hv'
  | enter hv _ _ ih ih' =>
    cases h' with
    | skip hv' => exact absurd hv' hv
    | enter _ h h' =>
      have heq := ih h
      subst heq
      exact ih' h'

theorem append (h : t.DepthFirst listed vs found) (h' : t.DepthFirst found ws order) :
    t.DepthFirst listed (vs ++ ws) order := by
  induction h with
  | done => exact h'
  | skip hv _ ih => exact .skip hv (ih h')
  | enter hv hfound _ _ ih => exact .enter hv hfound (ih h')

end Topology.DepthFirst

namespace Component.Search

variable {K : Type} {t : Topology K} {s : Search} {order : List Nat} {v x : Nat}

/-- The nodes discovered so far, in the order of their numbers. -/
structure Discovered (t : Topology K) (s : Search) (order : List Nat) : Prop where
  size_eq : s.index.size = t.size
  length_eq : order.length = s.nextIndex
  index_iff : ∀ v k, s.index.getD v none = some k ↔ order[k]? = some v

namespace Discovered

theorem mem_iff (h : Discovered t s order) : v ∈ order ↔ s.Seen v := by
  rw [List.mem_iff_getElem?, Seen, Option.ne_none_iff_exists']
  constructor
  · rintro ⟨k, hk⟩
    exact ⟨k, (h.index_iff v k).mpr hk⟩
  · rintro ⟨k, hk⟩
    exact ⟨k, (h.index_iff v k).mp hk⟩

theorem lt_size (h : Discovered t s order) (hv : v ∈ order) : v < t.size := by
  rw [← h.size_eq]
  exact (h.mem_iff.mp hv).lt_size

theorem nodup (h : Discovered t s order) : order.Nodup := by
  rw [List.nodup_iff_getElem?_ne_getElem?]
  intro i j hij hj heq
  have hi := List.getElem?_eq_getElem (hij.trans hj)
  have hindex := (h.index_iff _ i).mpr hi
  rw [(h.index_iff _ j).mpr (heq ▸ hi)] at hindex
  have := Option.some.inj hindex
  omega

theorem start (t : Topology K) : Discovered t (.start t.size) [] where
  size_eq := by simp [Search.start]
  length_eq := rfl
  index_iff v k := by
    have hnone : (Search.start t.size).index.getD v none = none := by
      by_contra hseen
      exact not_seen_start t.size v hseen
    simp [hnone]

theorem discover (h : Discovered t s order) (hv : v < t.size) (hnew : ¬ s.Seen v) :
    Discovered t (s.discover v) (order ++ [v]) where
  size_eq := by
    unfold Search.discover
    rw [Array.size_modify, h.size_eq]
  length_eq := by
    rw [List.length_append, h.length_eq]
    rfl
  index_iff x k := by
    by_cases hx : v = x
    · subst hx
      have hindex : (s.discover v).index.getD v none = some s.nextIndex :=
        getD_modify_self (by rw [h.size_eq]; exact hv) _ _
      have hmem : v ∉ order := fun hmem => hnew (h.mem_iff.mp hmem)
      rw [hindex, ← h.length_eq]
      constructor
      · intro hk
        obtain rfl := Option.some.inj hk
        simp
      · intro hk
        rcases Nat.lt_or_ge k order.length with hlt | hge
        · rw [List.getElem?_append_left hlt] at hk
          exact absurd (List.mem_of_getElem? hk) hmem
        · rw [List.getElem?_append_right hge, List.getElem?_singleton] at hk
          split at hk
          · congr 1
            omega
          · cases hk
    · rw [index_discover_of_ne hx, h.index_iff]
      rcases Nat.lt_or_ge k order.length with hlt | hge
      · rw [List.getElem?_append_left hlt]
      · rw [List.getElem?_eq_none hge, List.getElem?_append_right hge, List.getElem?_singleton]
        split
        · simp [hx]
        · rfl

theorem congr {s' : Search} (h : Discovered t s order) (hindex : s'.index = s.index)
    (hnext : s'.nextIndex = s.nextIndex) : Discovered t s' order where
  size_eq := by rw [hindex, h.size_eq]
  length_eq := by rw [hnext, h.length_eq]
  index_iff := by rw [hindex]; exact h.index_iff

theorem finish (h : Discovered t s order) (v : Nat) : Discovered t (s.finish t v) order := by
  unfold Search.finish
  split
  · unfold Search.close
    dsimp only
    split
    · exact h.congr rfl rfl
    · exact h.congr rfl rfl
  · exact h

end Discovered

/-- The state within a call, when the plain search has gone through some successors of the node. -/
def InStep (t : Topology K) (s : Search) (v : Nat) (done : List Nat) (s₁ : Search) : Prop :=
  ∀ order, Discovered t s order → ∃ found, t.DepthFirst (order ++ [v]) done found ∧ Discovered t s₁ found

theorem callsInStep (t : Topology K) :
    VisitRules t (fun _ s v done s₁ => InStep t s v done s₁) (fun _ s v s₁ => InStep t s v (t.successors v) s₁) where
  start h order ho := ⟨_, .done, ho.discover h.lt_size h.unseen⟩
  skip _ _ _ hseen hwithin order ho := by
    obtain ⟨found, hfound, hs₁⟩ := hwithin order ho
    refine ⟨found, hfound.append (.skip (hs₁.mem_iff.mpr hseen) .done), ?_⟩
    -- At most the low link of the call's node changes.
    split
    · exact hs₁.congr rfl rfl
    · exact hs₁
  enter _ hcan _ hwithin hdone order ho := by
    obtain ⟨found, hfound, hs₁⟩ := hwithin order ho
    obtain ⟨entered, hentered, hs₂⟩ := hdone found hs₁
    have hnew := mt hs₁.mem_iff.mp hcan.unseen
    exact ⟨entered, hfound.append (.enter hnew hentered .done), hs₂.congr rfl rfl⟩
  finish _ _ hwithin order ho := by
    obtain ⟨found, hfound, hs₁⟩ := hwithin order ho
    exact ⟨found, hfound, hs₁.finish _⟩

theorem Discovered.foldl_visitRoot (ht : t.Bounded) {roots : List Nat} (hroots : ∀ v ∈ roots, v < t.size)
    (hs : Invariant t [] s) (h : Discovered t s order) :
    ∃ found, t.DepthFirst order roots found ∧ Discovered t (roots.foldl (visitRoot t) s) found := by
  induction roots generalizing s order with
  | nil => exact ⟨order, .done, h⟩
  | cons r roots ih =>
    obtain ⟨hr, hroots⟩ := List.forall_mem_cons.mp hroots
    have hnext := (hs.visitRoot ht hr).1
    rw [List.foldl_cons]
    rw [visitRoot] at hnext ⊢
    by_cases hseen : s.Seen r
    · rw [if_neg hseen]
      obtain ⟨found, hfound, hdone⟩ := ih hroots hs h
      exact ⟨found, .skip (h.mem_iff.mpr hseen) hfound, hdone⟩
    · rw [if_pos (not_not.mp hseen)] at hnext ⊢
      obtain ⟨entered, hentered, hvisit⟩ :=
        (callsInStep t).visit ht (.root hs hr hseen) (Nat.le_add_right _ _) order h
      obtain ⟨found, hfound, hdone⟩ := ih hroots hnext hvisit
      exact ⟨found, .enter (fun hmem => hseen (h.mem_iff.mp hmem)) hentered hfound, hdone⟩

end Component.Search

end ModuleGraph
