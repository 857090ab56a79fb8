import ModuleGraph.Proofs.ComponentInvariant

namespace ModuleGraph.Component.Search

variable {K : Type} {t : Topology K} {calls done new : List Nat} {s s₁ s₂ : Search} {v w x : Nat}

theorem ne_of_not_seen (hv : ¬ s.Seen v) (hx : s.Seen x) : v ≠ x :=
  fun hvx => hv (hvx ▸ hx)

theorem seen_discover (hv : v < s.index.size) : (s.discover v).Seen x ↔ x = v ∨ s.Seen x := by
  by_cases hx : x = v
  · subst hx
    simp [Seen, discover, getD_modify_self hv]
  · have hne : v ≠ x := fun h => hx h.symm
    simp [Seen, discover, getD_modify_of_ne hne, hx]

theorem discovery_discover_self (hv : v < s.index.size) : (s.discover v).discovery v = s.nextIndex := by
  simp [discovery, discover, getD_modify_self hv]

theorem index_discover_of_ne (hne : v ≠ x) : (s.discover v).index.getD x none = s.index.getD x none :=
  getD_modify_of_ne hne _ _ _

theorem low_discover_self (hv : v < s.lowLink.size) : (s.discover v).low v = s.nextIndex :=
  getD_modify_self hv _ _

theorem low_lower_self (hv : v < s.lowLink.size) (k : Nat) : (s.lower v k).low v = min (s.low v) k :=
  getD_modify_self hv _ _

theorem low_lower_of_ne (hne : v ≠ x) (k : Nat) : (s.lower v k).low x = s.low x :=
  getD_modify_of_ne hne _ _ _

theorem Records.skip (h : Records t s) {members : List Nat} (hcycles : s₁.cycles = s.cycles)
    (hclosed : ∀ x, s₁.Closed x ↔ x ∈ members ∨ s.Closed x) (hacyclic : ∀ x ∈ members, ¬ t.Cyclic x) :
    Records t s₁ where
  isCycle := by rw [hcycles]; exact h.isCycle
  closed := by rw [hcycles]; exact fun c hc x hx => (hclosed x).mpr (.inr (h.closed c hc x hx))
  covered := by
    rw [hcycles]
    intro x hx hcyc
    exact h.covered x (((hclosed x).mp hx).resolve_left fun hm => hacyclic x hm hcyc) hcyc
  apart := by rw [hcycles]; exact h.apart

theorem Records.congr (h : Records t s) (hcycles : s₁.cycles = s.cycles)
    (hclosed : ∀ x, s₁.Closed x ↔ s.Closed x) : Records t s₁ :=
  h.skip hcycles (fun x => by rw [hclosed x]; simp) (fun x hx => absurd hx List.not_mem_nil)

theorem Records.push (h : Records t s) {c : List Nat} (hc : t.IsCycle c) (hopen : ∀ y ∈ c, ¬ s.Closed y)
    (hreach : ∀ x y, s.Closed x → t.Reaches x y → s.Closed y) (hcycles : s₁.cycles = c :: s.cycles)
    (hclosed : ∀ x, s₁.Closed x ↔ x ∈ c ∨ s.Closed x) : Records t s₁ where
  isCycle := by rw [hcycles]; exact List.forall_mem_cons.mpr ⟨hc, h.isCycle⟩
  closed := by
    rw [hcycles]
    refine List.forall_mem_cons.mpr ⟨fun x hx => (hclosed x).mpr (.inl hx), ?_⟩
    exact fun d hd x hx => (hclosed x).mpr (.inr (h.closed d hd x hx))
  covered := by
    rw [hcycles]
    intro x hx hcyc
    rcases (hclosed x).mp hx with hx | hx
    · exact ⟨c, List.mem_cons_self, hx⟩
    · obtain ⟨d, hd, hxd⟩ := h.covered x hx hcyc
      exact ⟨d, List.mem_cons_of_mem c hd, hxd⟩
  apart := by
    rw [hcycles]
    refine List.pairwise_cons.mpr ⟨?_, h.apart⟩
    intro d hd x hx y hy hr
    exact hopen y hy (hreach x y (h.closed d hd x hx) hr)

theorem discovery_discover_of_seen (hnew : ¬ s.Seen v) (hx : s.Seen x) :
    (s.discover v).discovery x = s.discovery x :=
  discovery_eq_of_index hx (index_discover_of_ne (ne_of_not_seen hnew hx))

theorem closed_discover (hv : v < s.index.size) (hnew : ¬ s.Seen v) :
    (s.discover v).Closed x ↔ s.Closed x := by
  have hstack : (s.discover v).stack = v :: s.stack := rfl
  rw [Closed, Closed, seen_discover hv, hstack, List.mem_cons]
  constructor
  · intro ⟨hx, hxs⟩
    exact ⟨hx.resolve_left fun h => hxs (.inl h), fun h => hxs (.inr h)⟩
  · intro ⟨hx, hxs⟩
    exact ⟨.inr hx, fun h => h.elim (ne_of_not_seen hnew hx).symm hxs⟩

theorem Numbered.discover (hs : Numbered t s) (hv : v < s.index.size) (hnew : ¬ s.Seen v) :
    Numbered t (s.discover v) where
  index_size := by simp [Search.discover, hs.index_size]
  lowLink_size := by simp [Search.discover, hs.lowLink_size]
  onStack_size := by simp [Search.discover, hs.onStack_size]
  discovery_lt := by
    intro x hx
    have hnext : (s.discover v).nextIndex = s.nextIndex + 1 := rfl
    rcases (seen_discover hv).mp hx with rfl | hx
    · rw [discovery_discover_self hv, hnext]
      omega
    · have hlt := hs.discovery_lt x hx
      rw [discovery_discover_of_seen hnew hx, hnext]
      omega
  discovery_inj := by
    intro x y hx hy heq
    rcases (seen_discover hv).mp hx with hxv | hx <;> rcases (seen_discover hv).mp hy with hyv | hy
    · rw [hxv, hyv]
    · have hlt := hs.discovery_lt y hy
      rw [hxv, discovery_discover_self hv, discovery_discover_of_seen hnew hy] at heq
      omega
    · have hlt := hs.discovery_lt x hx
      rw [hyv, discovery_discover_self hv, discovery_discover_of_seen hnew hx] at heq
      omega
    · rw [discovery_discover_of_seen hnew hx, discovery_discover_of_seen hnew hy] at heq
      exact hs.discovery_inj x y hx hy heq
  discovery_surj := by
    intro k hk
    rcases Nat.lt_succ_iff_lt_or_eq.mp hk with hk | hk
    · obtain ⟨x, hx, hxk⟩ := hs.discovery_surj k hk
      exact ⟨x, (seen_discover hv).mpr (.inr hx), by rw [discovery_discover_of_seen hnew hx, hxk]⟩
    · exact ⟨v, (seen_discover hv).mpr (.inl rfl), by rw [discovery_discover_self hv, hk]⟩

theorem Stacked.discover (hs : Stacked calls s) (hn : Numbered t s) (hv : v < t.size) (hnew : ¬ s.Seen v) :
    Stacked (v :: calls) (s.discover v) where
  seen_of_stack := by
    intro x hx
    have hvi : v < s.index.size := by rw [hn.index_size]; exact hv
    exact (seen_discover hvi).mpr ((List.mem_cons.mp hx).imp_right (hs.seen_of_stack x))
  onStack_iff := by
    intro x
    have hvo : v < s.onStack.size := by rw [hn.onStack_size]; exact hv
    have hstack : (s.discover v).stack = v :: s.stack := rfl
    rw [hstack, List.mem_cons, ← hs.onStack_iff x]
    by_cases hx : x = v
    · subst hx
      simp [Search.discover, getD_modify_self hvo]
    · simp [Search.discover, getD_modify_of_ne (Ne.symm hx), hx]
  stack_sorted := by
    have hvi : v < s.index.size := by rw [hn.index_size]; exact hv
    refine List.pairwise_cons.mpr ⟨?_, ?_⟩
    · intro x hx
      have hx := hs.seen_of_stack x hx
      rw [discovery_discover_self hvi, discovery_discover_of_seen hnew hx]
      exact hn.discovery_lt x hx
    · refine hs.stack_sorted.imp_of_mem ?_
      intro a b ha hb hab
      rw [discovery_discover_of_seen hnew (hs.seen_of_stack a ha),
        discovery_discover_of_seen hnew (hs.seen_of_stack b hb)]
      exact hab
  calls_open := by
    intro g hg
    exact List.mem_cons.mpr ((List.mem_cons.mp hg).imp_right (hs.calls_open g))

theorem Linked.discover (hs : Invariant t calls s) (hv : v < s.index.size) (hnew : ¬ s.Seen v)
    (hreach : ∀ g ∈ calls, t.Reaches g v) : Linked t (v :: calls) (s.discover v) where
  explored := by
    intro x hx hxc y hy
    rw [List.mem_cons, not_or] at hxc
    have hx := ((seen_discover hv).mp hx).resolve_left hxc.1
    exact (seen_discover hv).mpr (.inr (hs.explored x hx hxc.2 y hy))
  closed_succ := by
    intro x hx y hy
    exact (closed_discover hv hnew).mpr (hs.closed_succ x ((closed_discover hv hnew).mp hx) y hy)
  call_reaches := by
    intro g hg x hx hle
    rcases List.mem_cons.mp hx with hxv | hx
    · rcases List.mem_cons.mp hg with hgv | hg
      · rw [hxv, hgv]
        exact .refl v
      · exact hxv ▸ hreach g hg
    · have hseen := hs.seen_of_stack x hx
      have hlt := hs.discovery_lt x hseen
      rw [discovery_discover_of_seen hnew hseen] at hle
      rcases List.mem_cons.mp hg with hgv | hg
      · rw [hgv, discovery_discover_self hv] at hle
        omega
      · rw [discovery_discover_of_seen hnew (hs.seen_of_stack g (hs.calls_open g hg))] at hle
        exact hs.call_reaches g hg x hx hle
  reaches_call := by
    intro x hx
    rcases List.mem_cons.mp hx with hxv | hx
    · exact ⟨v, List.mem_cons_self, by rw [hxv], hxv ▸ .refl x⟩
    · obtain ⟨g, hg, hle, hr⟩ := hs.reaches_call x hx
      refine ⟨g, List.mem_cons_of_mem _ hg, ?_, hr⟩
      rw [discovery_discover_of_seen hnew (hs.seen_of_stack g (hs.calls_open g hg)),
        discovery_discover_of_seen hnew (hs.seen_of_stack x hx)]
      exact hle

theorem Invariant.discover (hs : Invariant t calls s) (hv : v < t.size) (hnew : ¬ s.Seen v)
    (hreach : ∀ g ∈ calls, t.Reaches g v) : Invariant t (v :: calls) (s.discover v) := by
  have hvi : v < s.index.size := by rw [hs.index_size]; exact hv
  exact
    { toNumbered := hs.toNumbered.discover hvi hnew
      toStacked := hs.toStacked.discover hs.toNumbered hv hnew
      toLinked := Linked.discover hs hvi hnew hreach
      toRecords := hs.toRecords.congr rfl fun _ => closed_discover hvi hnew }

theorem Numbered.lower (hs : Numbered t s) (v k : Nat) : Numbered t (s.lower v k) :=
  { hs with lowLink_size := by simpa [Search.lower] using hs.lowLink_size }

theorem Invariant.lower (hs : Invariant t calls s) (v k : Nat) : Invariant t calls (s.lower v k) :=
  { toNumbered := hs.toNumbered.lower v k
    toStacked := { hs with }
    toLinked := { hs with }
    toRecords := hs.toRecords.congr rfl fun _ => Iff.rfl }

end ModuleGraph.Component.Search
