import ModuleGraph.Proofs.BetweennessRenaming

namespace ModuleGraph

def Topology.loopless {K : Type} (t : Topology K) : Topology K where
  outgoing := t.outgoing.mapIdx fun v edges => edges.filter (·.1 ≠ v)
  incoming := t.incoming.mapIdx fun v sources => sources.filter (· ≠ v)

theorem Topology.size_loopless {K : Type} (t : Topology K) : t.loopless.size = t.size :=
  Array.size_mapIdx

theorem Topology.successors_loopless {K : Type} (t : Topology K) (v : Nat) :
    t.loopless.successors v = (t.successors v).filter (· ≠ v) := by
  unfold successors weightedSuccessors loopless
  rw [List.filter_map, Array.getD_eq_getD_getElem?, Array.getD_eq_getD_getElem?, Array.getElem?_mapIdx]
  cases t.outgoing[v]? with
  | none => rfl
  | some edges => rfl

namespace Betweenness

namespace Search

variable {K : Type} {t : Topology K} {source v w x d e : Nat} {s : Search K}

def MetAt (s : Search K) (v d : Nat) : Prop :=
  s.distance.getD v none = some d

/-- What the search has noted so far agrees with the edges. -/
structure Traced (t : Topology K) (source : Nat) (s : Search K) : Prop where
  size_eq : s.distance.size = t.size
  listed : ∀ v, v ∈ s.taken ∨ v ∈ s.queue → ∃ d, s.MetAt v d
  entered : ∀ w d, s.MetAt w d → w ≠ source → ∃ u e, w ∈ t.successors u ∧ s.MetAt u e ∧ d = e + 1
  parent : ∀ v w, v ∈ s.parents.getD w [] → w ∈ t.successors v ∧ ∃ d, s.MetAt v d ∧ s.MetAt w (d + 1)

theorem meet_of_new (h : s.distance.getD w none = none) :
    s.meet d w =
      { s with distance := s.distance.modify w fun _ => some (d + 1), queue := s.queue ++ [w] } :=
  if_pos h

theorem meet_of_met (h : s.distance.getD w none ≠ none) : s.meet d w = s :=
  if_neg h

theorem MetAt.meet (h : s.MetAt x e) : (s.meet d w).MetAt x e := by
  by_cases hnew : s.distance.getD w none = none
  · have hne : w ≠ x := by
      rintro rfl
      rw [MetAt, hnew] at h
      cases h
    rw [meet_of_new hnew, MetAt, getD_modify_of_ne hne]
    exact h
  · rw [meet_of_met hnew]
    exact h

theorem metAt_meet (hw : w < s.distance.size) :
    (s.meet d w).MetAt x e ↔ s.MetAt x e ∨ s.distance.getD w none = none ∧ x = w ∧ e = d + 1 := by
  by_cases hnew : s.distance.getD w none = none
  · rw [meet_of_new hnew, MetAt, MetAt]
    by_cases hx : w = x
    · subst hx
      rw [getD_modify_self hw, hnew]
      simp [eq_comm]
    · rw [getD_modify_of_ne hx]
      simp [Ne.symm hx]
  · rw [meet_of_met hnew]
    simp only [hnew, false_and, or_false]

theorem MetAt.follow [Scalar K] (h : s.MetAt x e) : (follow v d s w).MetAt x e := by
  rw [follow_eq, MetAt, link, apply_ite Search.distance, ite_self]
  exact h.meet

theorem mem_queue_meet : x ∈ (s.meet d w).queue ↔ x ∈ s.queue ∨ s.distance.getD w none = none ∧ x = w := by
  by_cases hnew : s.distance.getD w none = none
  · rw [meet_of_new hnew, List.mem_append, List.mem_singleton]
    simp only [hnew, true_and]
  · rw [meet_of_met hnew]
    simp only [hnew, false_and, or_false]

theorem taken_meet : (s.meet d w).taken = s.taken := by
  unfold meet
  rw [apply_ite Search.taken, ite_self]

theorem parents_meet : (s.meet d w).parents = s.parents := by
  unfold meet
  rw [apply_ite Search.parents, ite_self]

theorem size_meet : (s.meet d w).distance.size = s.distance.size := by
  unfold meet
  rw [apply_ite (fun s : Search K => s.distance.size), Array.size_modify, ite_self]

namespace Traced

theorem start [Scalar K] (hsource : source < t.size) : Traced t source (.start t.size source) where
  size_eq := by simp [Search.start]
  listed := by
    intro v hv
    have hvs : v = source := by simpa [Search.start] using hv
    refine ⟨0, ?_⟩
    rw [hvs, MetAt, Search.start, getD_modify_self (by simpa using hsource)]
  entered := by
    intro w d hw hne
    rw [MetAt, Search.start, getD_modify_of_ne (Ne.symm hne)] at hw
    by_cases hlt : w < t.size <;> simp [hlt] at hw
  parent := by
    intro v w hv
    by_cases hlt : w < t.size <;> simp [Search.start, hlt] at hv

theorem meet (h : Traced t source s) (hv : s.MetAt v d) (hw : w ∈ t.successors v) (hlt : w < t.size) :
    Traced t source (s.meet d w) := by
  have hsize : w < s.distance.size := by rw [h.size_eq]; exact hlt
  refine { size_eq := size_meet.trans h.size_eq, listed := ?_, entered := ?_, parent := ?_ }
  · intro x hx
    rw [taken_meet, mem_queue_meet, ← or_assoc] at hx
    rcases hx with hx | ⟨hnew, rfl⟩
    · obtain ⟨e, he⟩ := h.listed x hx
      exact ⟨e, he.meet⟩
    · exact ⟨d + 1, (metAt_meet hsize).mpr (.inr ⟨hnew, rfl, rfl⟩)⟩
  · intro x e hx hne
    rcases (metAt_meet hsize).mp hx with hx | ⟨_, rfl, rfl⟩
    · obtain ⟨u, e', hu, hue, he⟩ := h.entered x e hx hne
      exact ⟨u, e', hu, hue.meet, he⟩
    · exact ⟨v, d, hw, hv.meet, rfl⟩
  · intro x y hx
    rw [parents_meet] at hx
    obtain ⟨hy, e, hxe, hye⟩ := h.parent x y hx
    exact ⟨hy, e, hxe.meet, hye.meet⟩

theorem link [Scalar K] (h : Traced t source s) (hv : s.MetAt v d) (hw : w ∈ t.successors v) :
    Traced t source (s.link v d w) := by
  unfold Search.link
  split
  case isTrue hnear =>
    refine { h with parent := ?_ }
    intro x y hx
    rw [getD_modify] at hx
    split at hx
    case isTrue heq =>
      rcases List.mem_cons.mp hx with rfl | hx
      · exact ⟨heq.1 ▸ hw, d, hv, heq.1 ▸ hnear⟩
      · exact h.parent x y hx
    case isFalse => exact h.parent x y hx
  case isFalse => exact h

variable [Scalar K]

theorem foldl_follow (ht : t.Bounded) (h : Traced t source s) (hv : s.MetAt v d) {ws : List Nat}
    (hws : ∀ w ∈ ws, w ∈ t.successors v) : Traced t source (ws.foldl (follow v d) s) := by
  induction ws generalizing s with
  | nil => exact h
  | cons w ws ih =>
    have hw := hws w List.mem_cons_self
    have hlt := ht v w hw
    rw [List.foldl_cons]
    refine ih ((h.meet hv hw hlt).link hv.meet hw) hv.follow ?_
    intro x hx
    exact hws x (List.mem_cons_of_mem w hx)

theorem step (ht : t.Bounded) (h : Traced t source s) : Traced t source (s.step t) := by
  cases hq : s.queue with
  | nil => simpa only [Search.step, hq] using h
  | cons v queue =>
    obtain ⟨d, hd⟩ := h.listed v (.inr (by simp [hq]))
    have hnext : Traced t source { s with taken := v :: s.taken, queue } := by
      refine { h with listed := ?_ }
      intro x hx
      rcases hx with hx | hx
      · rcases List.mem_cons.mp hx with rfl | hx
        · exact ⟨d, hd⟩
        · exact h.listed x (.inl hx)
      · exact h.listed x (.inr (by rw [hq]; exact List.mem_cons_of_mem v hx))
    have hstep : s.step t =
        (t.successors v).foldl (follow v d) { s with taken := v :: s.taken, queue } := by
      have hdv : s.distance.getD v none = some d := hd
      simp only [Search.step, hq, hdv]
    rw [hstep]
    exact hnext.foldl_follow ht hd fun w hw => hw

theorem run (ht : t.Bounded) (h : Traced t source s) (left : Nat) : Traced t source (Search.run t left s) := by
  induction left generalizing s with
  | zero => exact h
  | succ left ih => exact ih (h.step ht)

end Traced

end Search

theorem search_traced {K : Type} [Scalar K] {t : Topology K} (ht : t.Bounded) {source : Nat}
    (hsource : source < t.size) : Search.Traced t source (search t source) :=
  (Search.Traced.start hsource).run ht t.size

section Loopless

variable {K : Type} [Scalar K] {s : Search K} {v d : Nat}

theorem Search.follow_self (h : s.MetAt v d) : Search.follow v d s v = s := by
  rw [MetAt] at h
  have hmet : s.distance.getD v none ≠ none := by simp only [h, ne_eq, reduceCtorEq, not_false_eq_true]
  have hfar : s.distance.getD v none ≠ some (d + 1) := by
    rw [h]
    intro heq
    have := Option.some.inj heq
    omega
  rw [follow_eq, meet_of_met hmet, link, if_neg hfar]

theorem Search.foldl_follow_loopless (h : s.MetAt v d) (ws : List Nat) :
    (ws.filter (· ≠ v)).foldl (follow v d) s = ws.foldl (follow v d) s := by
  induction ws generalizing s with
  | nil => rfl
  | cons w ws ih =>
    by_cases hw : w = v
    · rw [List.filter_cons_of_neg (by simpa using hw), List.foldl_cons, hw, follow_self h]
      exact ih h
    · rw [List.filter_cons_of_pos (by simpa using hw), List.foldl_cons, List.foldl_cons]
      exact ih h.follow

theorem Search.step_loopless (t : Topology K) (s : Search K) : s.step t.loopless = s.step t := by
  unfold step
  cases s.queue with
  | nil => rfl
  | cons v queue =>
    dsimp only
    cases hd : s.distance.getD v none with
    | none => rfl
    | some d =>
      have hmet : MetAt { s with taken := v :: s.taken, queue } v d := hd
      dsimp only
      rw [t.successors_loopless]
      exact foldl_follow_loopless hmet (t.successors v)

theorem Search.run_loopless (t : Topology K) (left : Nat) (s : Search K) :
    run t.loopless left s = run t left s := by
  induction left generalizing s with
  | zero => rfl
  | succ left ih => rw [run, run, step_loopless, ih]

theorem compute_loopless (t : Topology K) : compute t.loopless = compute t := by
  have hsearch : ∀ source, search t.loopless source = search t source := by
    intro source
    unfold search
    rw [t.size_loopless, Search.run_loopless]
  have haccumulate : accumulate t.loopless = accumulate t := by
    funext centrality source
    unfold accumulate
    rw [hsearch, t.size_loopless]
  unfold compute
  rw [haccumulate, t.size_loopless]

end Loopless

section ModifyEach

variable {α : Type} (share : Array α) (f : Nat → Array α → α → α)

theorem size_foldr_modify (vs : List Nat) :
    (vs.foldr (fun v share => share.modify v (f v share)) share).size = share.size := by
  induction vs with
  | nil => rfl
  | cons v vs ih => rw [List.foldr_cons, Array.size_modify, ih]

theorem foldr_modify_getD_of_not_mem {vs : List Nat} {x : Nat} (hx : x ∉ vs) (a : α) :
    (vs.foldr (fun v share => share.modify v (f v share)) share).getD x a = share.getD x a := by
  induction vs with
  | nil => rfl
  | cons v vs ih =>
    rw [List.mem_cons, not_or] at hx
    rw [List.foldr_cons, getD_modify_of_ne (Ne.symm hx.1), ih hx.2]

end ModifyEach

theorem shareBack_getD_of_not_mem (s : Search ℚ) (share : Array ℚ) {w x : Nat} (hx : x ∉ s.parents.getD w []) :
    (shareBack s share w).getD x 0 = share.getD x 0 :=
  foldr_modify_getD_of_not_mem share _ hx 0

theorem gain_ne_zero {s : Search ℚ} {source x : Nat} {ws : List Nat} {share : Array ℚ}
    (hshare : share.getD x 0 ≠ 0 → ∃ w, x ∈ s.parents.getD w []) (h : gain s source ws share x ≠ 0) :
    x ∈ ws ∧ x ≠ source ∧ ∃ w, x ∈ s.parents.getD w [] := by
  induction ws generalizing share with
  | nil => exact absurd rfl h
  | cons w ws ih =>
    have hnext : (shareBack s share w).getD x 0 ≠ 0 → ∃ w, x ∈ s.parents.getD w [] := by
      intro hne
      by_cases hx : x ∈ s.parents.getD w []
      · exact ⟨w, hx⟩
      · rw [shareBack_getD_of_not_mem s share hx] at hne
        exact hshare hne
    rw [gain] at h
    by_cases hrest : gain s source ws (shareBack s share w) x = 0
    · rw [hrest, add_zero] at h
      obtain ⟨⟨hw, rfl⟩, hne⟩ := ite_ne_right_iff.mp h
      exact ⟨List.mem_cons_self, hw, hnext hne⟩
    · obtain ⟨hx, hrest⟩ := ih hnext hrest
      exact ⟨List.mem_cons_of_mem w hx, hrest⟩

theorem neighbours_of_contribution {t : Topology ℚ} (ht : t.Bounded) {source x : Nat} (hsource : source < t.size)
    (h : contribution t source x ≠ 0) :
    (∃ u, u ≠ x ∧ x ∈ t.successors u) ∧ ∃ w, w ≠ x ∧ w ∈ t.successors x := by
  have hnone : (Array.replicate t.size (0 : ℚ)).getD x 0 ≠ 0 → ∃ w, x ∈ (search t source).parents.getD w [] := by
    intro hne
    by_cases hx : x < t.size <;> simp [hx] at hne
  obtain ⟨htaken, hne, w, hw⟩ := gain_ne_zero hnone h
  have htraced := search_traced ht hsource
  obtain ⟨d, hd⟩ := htraced.listed x (.inl htaken)
  obtain ⟨u, e, hu, hue, rfl⟩ := htraced.entered x d hd hne
  obtain ⟨hsucc, d', hd', hwd⟩ := htraced.parent x w hw
  -- Distances keep both neighbours apart from the node: one is a step nearer, the other a step farther.
  refine ⟨⟨u, ?_, hu⟩, w, ?_, hsucc⟩
  · rintro rfl
    have := Option.some.inj (hd.symm.trans hue)
    omega
  · rintro rfl
    have := Option.some.inj (hd'.symm.trans hwd)
    omega

theorem neighbours_of_betweenness {t : Topology ℚ} (ht : t.Bounded) {x : Nat}
    (h : (compute t).toArray.getD x Scalar.zero ≠ 0) :
    (∃ u, u ≠ x ∧ x ∈ t.successors u) ∧ ∃ w, w ≠ x ∧ w ∈ t.successors x := by
  rw [Array.getD_eq_getD_getElem?, List.getElem?_toArray, compute_getElem?] at h
  split at h
  case isTrue =>
    obtain ⟨y, hy, hne⟩ := List.exists_mem_ne_zero_of_sum_ne_zero h
    obtain ⟨source, hsource, rfl⟩ := List.mem_map.mp hy
    exact neighbours_of_contribution ht (List.mem_range.mp hsource) hne
  case isFalse => exact absurd Scalar.rat_zero h

end Betweenness

end ModuleGraph
