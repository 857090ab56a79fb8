import ModuleGraph.Proofs.ComponentVisit

namespace ModuleGraph.Component.Search

variable {K : Type} {t : Topology K} {calls new : List Nat} {s s₁ : Search} {v x : Nat}

theorem popTo_append (hv : v ∉ new) (rest : List Nat) : popTo v (new ++ v :: rest) = (new ++ [v], rest) := by
  induction new with
  | nil => simp [popTo]
  | cons x new ih =>
    rw [List.mem_cons, not_or] at hv
    simp [popTo, ih hv.2, Ne.symm hv.1]

def clearFlags (members : List Nat) (flags : Array Bool) : Array Bool :=
  members.foldl (fun flags w => flags.modify w fun _ => false) flags

theorem size_clearFlags (members : List Nat) (flags : Array Bool) :
    (clearFlags members flags).size = flags.size := by
  induction members generalizing flags with
  | nil => rfl
  | cons x members ih =>
    rw [clearFlags, List.foldl_cons]
    exact (ih _).trans Array.size_modify

theorem getD_clearFlags (members : List Nat) (flags : Array Bool) :
    (clearFlags members flags).getD x false = true ↔ x ∉ members ∧ flags.getD x false = true := by
  induction members generalizing flags with
  | nil => simp [clearFlags]
  | cons y members ih =>
    rw [clearFlags, List.foldl_cons, ← clearFlags, ih, List.mem_cons, not_or, getD_modify]
    by_cases hyx : y = x
    · subst hyx
      by_cases hy : y < flags.size
      · simp [hy]
      · simp [hy]
    · simp [hyx, Ne.symm hyx]

theorem close_eq (hstack : s.stack = new ++ v :: calls) (hv : v ∉ new) :
    s.close t v =
      { s with
        stack := calls
        onStack := clearFlags (new ++ [v]) s.onStack
        cycles := if 2 ≤ (new ++ [v]).length || t.hasSelfLoop v then
            sortOn s.discovery (new ++ [v]).reverse :: s.cycles
          else s.cycles } := by
  simp only [close, hstack, popTo_append hv]
  split
  · rfl
  · rfl

namespace Exploring

variable (hs : Invariant t calls s) (hnew : ¬ s.Seen v) (h : Exploring t calls s v (t.successors v) s₁)
  (hstack : s₁.stack = new ++ v :: s.stack) (hon : StacksOn t s (s₁.low v) new)

include h in
theorem explored_done (x : Nat) (hx : s₁.Seen x) (hxc : x ∉ calls) : ∀ y ∈ t.successors x, s₁.Seen y := by
  intro y hy
  by_cases hxv : x = v
  · exact h.seen y (hxv ▸ hy)
  · exact h.invariant.explored x hx (by simp [hxv, hxc]) y hy

include h hstack in
theorem not_mem_new : v ∉ new := by
  have hnodup := h.invariant.stack_nodup
  rw [hstack] at hnodup
  intro hv
  exact (List.nodup_append.mp hnodup).2.2 v hv v List.mem_cons_self rfl

include hstack in
theorem stack_eq_members : s₁.stack = (new ++ [v]) ++ s.stack := by
  simp [hstack]

include hstack in
theorem new_open (hx : x ∈ new ++ [v]) : x ∈ s₁.stack := by
  rw [stack_eq_members hstack]
  exact List.mem_append_left _ hx

include h hstack in
theorem discovery_le_new (hx : x ∈ new ++ [v]) : s₁.discovery v ≤ s₁.discovery x := by
  have hsorted := h.invariant.stack_sorted
  rw [hstack] at hsorted
  rcases List.mem_append.mp hx with hx | hx
  · exact Nat.le_of_lt ((List.pairwise_append.mp hsorted).2.2 x hx v List.mem_cons_self)
  · rw [List.mem_singleton.mp hx]

include hs hnew hon in
theorem not_mem_of_new (hx : x ∈ new ++ [v]) : x ∉ s.stack := by
  intro hxs
  have hseen := hs.seen_of_stack x hxs
  rcases List.mem_append.mp hx with hx | hx
  · exact hon.fresh x hx hseen
  · exact hnew (List.mem_singleton.mp hx ▸ hseen)

include hs hnew h hstack hon

/-- An edge from the nodes that a call opened stays among them, leads to a closed node, or to an older open node
that is not below the low link. -/
theorem edge_cases {y : Nat} (hx : x ∈ new ++ [v]) (hy : y ∈ t.successors x) :
    y ∈ new ++ [v] ∨ s₁.Closed y ∨ y ∈ s.stack ∧ s₁.low v ≤ s.discovery y := by
  have hcases : s₁.Seen y ∧ (y ∈ s.stack → s₁.low v ≤ s.discovery y) := by
    by_cases hxv : x = v
    · subst hxv
      exact ⟨h.seen y hy, h.bounded y hy⟩
    · have hxn : x ∈ new := (List.mem_append.mp hx).resolve_right fun hm => hxv (List.mem_singleton.mp hm)
      have hxs : x ∈ s₁.stack := by rw [hstack]; simp [hxn]
      have hxc : x ∉ v :: calls := by
        intro hc
        have hc := (List.mem_cons.mp hc).resolve_left hxv
        exact not_mem_of_new hs hnew hon hx (hs.calls_open x hc)
      exact ⟨h.invariant.explored x (h.invariant.seen_of_stack x hxs) hxc y hy, hon.bounded x hxn y hy⟩
  by_cases hys : y ∈ s₁.stack
  · rw [hstack] at hys
    rcases List.mem_append.mp hys with hys | hys
    · exact .inl (List.mem_append_left _ hys)
    · rcases List.mem_cons.mp hys with hyv | hys
      · exact .inl (by simp [hyv])
      · exact .inr (.inr ⟨hys, hcases.2 hys⟩)
  · exact .inr (.inl ⟨hcases.1, hys⟩)

omit hnew hon in
theorem reaches_older_call (hlow : s₁.low v < s.nextIndex) :
    ∃ g ∈ calls, s₁.discovery g < s₁.discovery v ∧ t.Reaches v g := by
  obtain ⟨z, hz, hzd, hzr⟩ := h.low_reached
  have hv := h.discovery_self
  have hzs : z ∈ s.stack := by
    by_contra hzs
    have hzn : z ∈ new ++ [v] := by
      rw [hstack] at hz
      simpa [hzs] using hz
    have hle := h.discovery_le_new hstack hzn
    omega
  obtain ⟨g, hg, hgd, hgr⟩ := hs.reaches_call z hzs
  refine ⟨g, hg, ?_, hzr.trans hgr⟩
  have hzo := h.grows.discovery_eq (hs.seen_of_stack z hzs)
  rw [h.grows.discovery_eq (hs.seen_of_stack g (hs.calls_open g hg))]
  omega

theorem leave_open (hlow : s₁.low v < s.nextIndex) : Visited t calls s v s₁ := by
  have hlinked : Linked t calls s₁ :=
    { explored := h.explored_done
      closed_succ := h.invariant.closed_succ
      call_reaches := fun g hg => h.invariant.call_reaches g (List.mem_cons_of_mem v hg)
      reaches_call := by
        intro x hx
        obtain ⟨g, hg, hgd, hgr⟩ := h.invariant.reaches_call x hx
        rcases List.mem_cons.mp hg with hgv | hg
        · obtain ⟨g', hg', hgd', hgr'⟩ := reaches_older_call hs h hstack hlow
          rw [hgv] at hgd hgr
          exact ⟨g', hg', by omega, hgr.trans hgr'⟩
        · exact ⟨g, hg, hgd, hgr⟩ }
  have hstacked : Stacked calls s₁ :=
    { h.invariant with calls_open := fun g hg => h.invariant.calls_open g (List.mem_cons_of_mem v hg) }
  refine
    { invariant := { h.invariant with toStacked := hstacked, toLinked := hlinked }
      grows := h.grows
      seen := h.seen_self
      stack_eq := ⟨new ++ [v], by simp [hstack], ?_, ?_⟩
      low_reached := .inr h.low_reached }
  · intro x hx
    rcases List.mem_append.mp hx with hx | hx
    · exact hon.fresh x hx
    · exact List.mem_singleton.mp hx ▸ hnew
  · intro x hx y hy hys
    rcases List.mem_append.mp hx with hx | hx
    · exact hon.bounded x hx y hy hys
    · have hxv := List.mem_singleton.mp hx
      exact h.bounded y (hxv ▸ hy) hys

theorem reaches_cases (hlow : s.nextIndex ≤ s₁.low v) {y : Nat} (hx : x ∈ new ++ [v]) (hr : t.Reaches x y) :
    y ∈ new ++ [v] ∨ s₁.Closed y := by
  induction hr with
  | refl => exact .inl hx
  | tail _ hstep ih =>
    rcases ih with hmem | hclosed
    · rcases edge_cases hs hnew h hstack hon hmem hstep with hy | hy | ⟨hys, hle⟩
      · exact .inl hy
      · exact .inr hy
      · have hlt := hs.discovery_lt _ (hs.seen_of_stack _ hys)
        omega
    · exact .inr (h.invariant.closed_succ _ hclosed _ hstep)

theorem mem_new_iff_mutual (hlow : s.nextIndex ≤ s₁.low v) : x ∈ new ++ [v] ↔ t.Mutual v x := by
  have hvn : v ∈ new ++ [v] := by simp
  have hv : v ∈ s₁.stack := new_open hstack hvn
  constructor
  · intro hx
    have hxs : x ∈ s₁.stack := new_open hstack hx
    refine ⟨h.invariant.call_reaches v List.mem_cons_self x hxs (h.discovery_le_new hstack hx), ?_⟩
    obtain ⟨g, hg, _, hgr⟩ := h.invariant.reaches_call x hxs
    rcases List.mem_cons.mp hg with hgv | hgc
    · exact hgv ▸ hgr
    · rcases reaches_cases hs hnew h hstack hon hlow hx hgr with hgn | hgn
      · exact absurd (hs.calls_open g hgc) (not_mem_of_new hs hnew hon hgn)
      · exact absurd (h.invariant.calls_open g hg) hgn.2
  · intro hx
    rcases reaches_cases hs hnew h hstack hon hlow hvn hx.1 with hxn | hxc
    · exact hxn
    · exact absurd hv (h.invariant.closed_of_reaches hxc hx.2).2

theorem recorded_of_cyclic (hlow : s.nextIndex ≤ s₁.low v) (hx : x ∈ new ++ [v]) (hcyc : t.Cyclic x) :
    (2 ≤ (new ++ [v]).length || t.hasSelfLoop v) = true := by
  have hclass := fun y => mem_new_iff_mutual (x := y) hs hnew h hstack hon hlow
  rw [Bool.or_eq_true, decide_eq_true_eq]
  by_contra hno
  rw [not_or] at hno
  have hnil : new = [] := by
    cases new with
    | nil => rfl
    | cons y new => simp at hno
  subst hnil
  have hxv : x = v := by simpa using hx
  subst hxv
  rcases hcyc with hself | ⟨w, hw, hmut⟩
  · exact hno.2 (by simpa [Topology.hasSelfLoop] using hself)
  · exact hw (by simpa using (hclass w).mpr hmut)

theorem cyclic_of_recorded (hlow : s.nextIndex ≤ s₁.low v)
    (hrec : (2 ≤ (new ++ [v]).length || t.hasSelfLoop v) = true) : t.Cyclic v := by
  rw [Bool.or_eq_true, decide_eq_true_eq] at hrec
  rcases hrec with hlen | hself
  · cases hc : new with
    | nil => simp [hc] at hlen
    | cons y rest =>
      have hy : y ∈ new := by simp [hc]
      have hyv : y ≠ v := fun hyv => h.not_mem_new hstack (hyv ▸ hy)
      have hmut := (mem_new_iff_mutual hs hnew h hstack hon hlow).mp (List.mem_append_left [v] hy)
      exact .inr ⟨y, hyv, hmut⟩
  · exact .inl (by simpa [Topology.hasSelfLoop] using hself)

theorem closed_close : (s₁.close t v).Closed x ↔ x ∈ new ++ [v] ∨ s₁.Closed x := by
  rw [close_eq hstack (h.not_mem_new hstack)]
  constructor
  · intro ⟨hseen, hxs⟩
    by_cases hx : x ∈ s₁.stack
    · rw [stack_eq_members hstack] at hx
      exact .inl ((List.mem_append.mp hx).resolve_right hxs)
    · exact .inr ⟨hseen, hx⟩
  · rintro (hx | ⟨hseen, hx⟩)
    · exact ⟨h.invariant.seen_of_stack x (new_open hstack hx), (not_mem_of_new hs hnew hon hx : x ∉ s.stack)⟩
    · refine ⟨hseen, fun hxs => hx ?_⟩
      have hxs : x ∈ s.stack := hxs
      rw [hstack]
      simp [hxs]

theorem records_close (hlow : s.nextIndex ≤ s₁.low v) : Records t (s₁.close t v) := by
  have hclosed := fun x => closed_close (x := x) hs hnew h hstack hon
  have hcycles := congrArg Search.cycles (close_eq (t := t) hstack (h.not_mem_new hstack))
  by_cases hrec : (2 ≤ (new ++ [v]).length || t.hasSelfLoop v) = true
  · have hperm : (sortOn s₁.discovery (new ++ [v]).reverse).Perm (new ++ [v]) :=
      (sortOn_perm _ _).trans (List.reverse_perm _)
    have hnodup : (new ++ [v]).Nodup := by
      have hn := h.invariant.stack_nodup
      rw [stack_eq_members hstack] at hn
      exact (List.nodup_append.mp hn).1
    simp only [hrec, if_true] at hcycles
    refine h.invariant.push ⟨hperm.symm.nodup hnodup, v, ?_, ?_⟩ ?_ ?_ hcycles ?_
    · exact cyclic_of_recorded hs hnew h hstack hon hlow hrec
    · intro w
      rw [hperm.mem_iff]
      exact mem_new_iff_mutual hs hnew h hstack hon hlow
    · intro y hy hyc
      exact hyc.2 (new_open hstack (hperm.mem_iff.mp hy))
    · exact fun x y hx hr => h.invariant.closed_of_reaches hx hr
    · intro x
      rw [hperm.mem_iff, hclosed]
  · simp only [hrec] at hcycles
    refine h.invariant.skip hcycles hclosed ?_
    exact fun x hx hcyc => hrec (recorded_of_cyclic hs hnew h hstack hon hlow hx hcyc)

theorem stacked_close : Stacked calls (s₁.close t v) := by
  have hvn := h.not_mem_new hstack
  rw [close_eq hstack hvn]
  have hsorted := h.invariant.stack_sorted
  have hopen := h.invariant.onStack_iff
  rw [stack_eq_members hstack] at hsorted
  refine
    { seen_of_stack := fun x hx => h.grows.seen (hs.seen_of_stack x hx)
      onStack_iff := ?_
      stack_sorted := (List.pairwise_append.mp hsorted).2.1
      calls_open := hs.calls_open }
  intro x
  show (clearFlags (new ++ [v]) s₁.onStack).getD x false = true ↔ x ∈ s.stack
  rw [getD_clearFlags, hopen x, stack_eq_members hstack, @List.mem_append _ x (new ++ [v])]
  constructor
  · intro ⟨hxn, hx⟩
    exact hx.resolve_left hxn
  · intro hx
    exact ⟨fun hxn => not_mem_of_new hs hnew hon hxn hx, .inr hx⟩

theorem linked_close (hlow : s.nextIndex ≤ s₁.low v) : Linked t calls (s₁.close t v) := by
  have hclosed := fun x => closed_close (x := x) hs hnew h hstack hon
  have hstacked := stacked_close hs hnew h hstack hon
  have hdisc : ∀ x, (s₁.close t v).discovery x = s₁.discovery x := by
    intro x
    rw [close_eq hstack (h.not_mem_new hstack)]
    rfl
  have hseen : ∀ x, (s₁.close t v).Seen x ↔ s₁.Seen x := by
    intro x
    rw [close_eq hstack (h.not_mem_new hstack)]
    exact Iff.rfl
  have hstk : (s₁.close t v).stack = s.stack := by
    rw [close_eq hstack (h.not_mem_new hstack)]
  have hold : ∀ x ∈ s.stack, s₁.discovery x = s.discovery x :=
    fun x hx => h.grows.discovery_eq (hs.seen_of_stack x hx)
  refine { explored := ?_, closed_succ := ?_, call_reaches := ?_, reaches_call := ?_ }
  · intro x hx hxc y hy
    rw [hseen] at hx ⊢
    exact h.explored_done x hx hxc y hy
  · intro x hx y hy
    rcases (hclosed x).mp hx with hx | hx
    · exact (hclosed y).mpr (reaches_cases hs hnew h hstack hon hlow hx (.of_mem hy))
    · exact (hclosed y).mpr (.inr (h.invariant.closed_succ x hx y hy))
  · intro g hg x hx hle
    rw [hdisc, hdisc] at hle
    rw [hstk] at hx
    exact h.invariant.call_reaches g (List.mem_cons_of_mem v hg) x (by rw [hstack]; simp [hx]) hle
  · intro x hx
    rw [hstk] at hx
    obtain ⟨g, hg, hgd, hgr⟩ := hs.reaches_call x hx
    refine ⟨g, hg, ?_, hgr⟩
    rw [hdisc, hdisc, hold x hx, hold g (hs.calls_open g hg)]
    exact hgd

/-- A call whose node reaches no older open node closes the component of the node. -/
theorem close (hlow : s.nextIndex ≤ s₁.low v) : Visited t calls s v (s₁.close t v) := by
  have heq := close_eq (t := t) hstack (h.not_mem_new hstack)
  have hnumbered : Numbered t (s₁.close t v) := by
    rw [heq]
    exact { h.invariant with onStack_size := (size_clearFlags _ _).trans h.invariant.onStack_size }
  have hstacked := stacked_close hs hnew h hstack hon
  have hlinked := linked_close hs hnew h hstack hon hlow
  have hrecords := records_close hs hnew h hstack hon hlow
  refine
    { invariant := ⟨hnumbered, hstacked, hlinked, hrecords⟩
      grows := ?_
      seen := ?_
      stack_eq := ⟨[], ?_, .nil t s _⟩
      low_reached := .inl ?_ } <;> rw [heq]
  · exact ⟨h.grows.index_eq, h.grows.low_eq, h.grows.nextIndex_le⟩
  · exact h.seen_self
  · rfl
  · exact hlow

omit hstack hon in
theorem finish : Visited t calls s v (s₁.finish t v) := by
  obtain ⟨new, hstack, hon⟩ := h.stack_eq
  rw [Search.finish, index_eq_of_seen h.seen_self, h.discovery_self]
  split
  case isTrue heq =>
    have heq : s₁.low v = s.nextIndex := by simpa using heq
    exact close hs hnew h hstack hon (Nat.le_of_eq heq.symm)
  case isFalse hne =>
    have hne : s₁.low v ≠ s.nextIndex := by simpa using hne
    exact leave_open hs hnew h hstack hon (Nat.lt_of_le_of_ne h.low_le hne)

end Exploring

end ModuleGraph.Component.Search
