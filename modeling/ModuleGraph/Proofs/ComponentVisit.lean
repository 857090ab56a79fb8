import ModuleGraph.Proofs.ComponentSearch

namespace ModuleGraph.Component.Search

variable {K : Type} {t : Topology K} {calls done new : List Nat} {s s₁ s₂ : Search} {v w x k : Nat}

structure Grows (s s₁ : Search) : Prop where
  index_eq : ∀ x, s.Seen x → s₁.index.getD x none = s.index.getD x none
  low_eq : ∀ x, s.Seen x → s₁.low x = s.low x
  nextIndex_le : s.nextIndex ≤ s₁.nextIndex

namespace Grows

theorem seen (h : Grows s s₁) (hx : s.Seen x) : s₁.Seen x := by
  rw [Seen, h.index_eq x hx]
  exact hx

theorem discovery_eq (h : Grows s s₁) (hx : s.Seen x) : s₁.discovery x = s.discovery x :=
  discovery_eq_of_index hx (h.index_eq x hx)

theorem refl (s : Search) : Grows s s :=
  ⟨fun _ _ => rfl, fun _ _ => rfl, Nat.le_refl _⟩

theorem trans (h : Grows s s₁) (h' : Grows s₁ s₂) : Grows s s₂ where
  index_eq := fun x hx => (h'.index_eq x (h.seen hx)).trans (h.index_eq x hx)
  low_eq := fun x hx => (h'.low_eq x (h.seen hx)).trans (h.low_eq x hx)
  nextIndex_le := h.nextIndex_le.trans h'.nextIndex_le

theorem lower (h : Grows s s₁) (hv : ¬ s.Seen v) : Grows s (s₁.lower v k) where
  index_eq := h.index_eq
  low_eq := by
    intro x hx
    rw [low_lower_of_ne (ne_of_not_seen hv hx), h.low_eq x hx]
  nextIndex_le := h.nextIndex_le

theorem discover (hv : ¬ s.Seen v) : Grows s (s.discover v) where
  index_eq := fun _ hx => index_discover_of_ne (ne_of_not_seen hv hx)
  low_eq := fun _ hx => getD_modify_of_ne (ne_of_not_seen hv hx) _ _ _
  nextIndex_le := Nat.le_succ _

end Grows

/-- The open nodes of `s₁` are new ones on top of a stack, and no edge from a new one to the stack of `s` leads
below a bound. -/
structure StacksOn (t : Topology K) (s : Search) (bound : Nat) (new : List Nat) : Prop where
  fresh : ∀ x ∈ new, ¬ s.Seen x
  bounded : ∀ x ∈ new, ∀ y ∈ t.successors x, y ∈ s.stack → bound ≤ s.discovery y

theorem StacksOn.nil (t : Topology K) (s : Search) (bound : Nat) : StacksOn t s bound [] :=
  ⟨fun _ h => absurd h List.not_mem_nil, fun _ h => absurd h List.not_mem_nil⟩

/-- What a call for `v` in state `s` has done at its end. -/
structure Visited (t : Topology K) (calls : List Nat) (s : Search) (v : Nat) (s₁ : Search) : Prop where
  invariant : Invariant t calls s₁
  grows : Grows s s₁
  seen : s₁.Seen v
  stack_eq : ∃ new, s₁.stack = new ++ s.stack ∧ StacksOn t s (s₁.low v) new
  low_reached : s.nextIndex ≤ s₁.low v ∨ ∃ y ∈ s₁.stack, s₁.discovery y = s₁.low v ∧ t.Reaches v y

/-- What a call for `v` in state `s` has done once it has explored some successors. -/
structure Exploring (t : Topology K) (calls : List Nat) (s : Search) (v : Nat) (done : List Nat)
    (s₁ : Search) : Prop where
  invariant : Invariant t (v :: calls) s₁
  grows : Grows s s₁
  discovery_self : s₁.discovery v = s.nextIndex
  stack_eq : ∃ new, s₁.stack = new ++ v :: s.stack ∧ StacksOn t s (s₁.low v) new
  low_le : s₁.low v ≤ s.nextIndex
  low_reached : ∃ y ∈ s₁.stack, s₁.discovery y = s₁.low v ∧ t.Reaches v y
  seen : ∀ w ∈ done, s₁.Seen w
  bounded : ∀ w ∈ done, w ∈ s.stack → s₁.low v ≤ s.discovery w

namespace Exploring

theorem discover (hs : Invariant t calls s) (hv : v < t.size) (hnew : ¬ s.Seen v)
    (hreach : ∀ g ∈ calls, t.Reaches g v) : Exploring t calls s v [] (s.discover v) := by
  have hvi : v < s.index.size := by rw [hs.index_size]; exact hv
  have hvl : v < s.lowLink.size := by rw [hs.lowLink_size]; exact hv
  refine
    { invariant := hs.discover hv hnew hreach
      grows := .discover hnew
      discovery_self := discovery_discover_self hvi
      stack_eq := ⟨[], rfl, .nil t s _⟩
      low_le := Nat.le_of_eq (low_discover_self hvl)
      low_reached := ⟨v, List.mem_cons_self, ?_, .refl v⟩
      seen := fun _ h => absurd h List.not_mem_nil
      bounded := fun _ h => absurd h List.not_mem_nil }
  rw [discovery_discover_self hvi, low_discover_self hvl]

theorem seen_self (h : Exploring t calls s v done s₁) : s₁.Seen v :=
  h.invariant.seen_of_stack v (h.invariant.calls_open v List.mem_cons_self)

theorem nextIndex_lt (h : Exploring t calls s v done s₁) : s.nextIndex < s₁.nextIndex := by
  have hlt := h.invariant.discovery_lt v h.seen_self
  rw [h.discovery_self] at hlt
  exact hlt

/-- The search goes on from one explored successor to the next: more nodes may have been opened, and the low link
of the call's node is lowered to what the successor reaches. -/
theorem advance (hs : Invariant t calls s) (hnew : ¬ s.Seen v) (h : Exploring t calls s v done s₁)
    (hinv : Invariant t (v :: calls) s₂) (hgrows : Grows s₁ s₂)
    (hstack : ∃ new, s₂.stack = new ++ s₁.stack ∧ StacksOn t s₁ k new)
    (hreached : s₁.nextIndex ≤ k ∨ ∃ y ∈ s₂.stack, s₂.discovery y = k ∧ t.Reaches v y)
    (hseen : s₂.Seen w) (hbound : w ∈ s.stack → k ≤ s.discovery w) :
    Exploring t calls s v (done ++ [w]) (s₂.lower v k) := by
  obtain ⟨new, hnews, hon⟩ := h.stack_eq
  obtain ⟨new', hnews', hon'⟩ := hstack
  have hvl : v < s₂.lowLink.size := by
    rw [hinv.lowLink_size, ← hinv.index_size]
    exact (hgrows.seen h.seen_self).lt_size
  have hlow : (s₂.lower v k).low v = min (s₁.low v) k := by
    rw [low_lower_self hvl, hgrows.low_eq v h.seen_self]
  have hle₁ : (s₂.lower v k).low v ≤ s₁.low v := by rw [hlow]; exact Nat.min_le_left _ _
  have hle₂ : (s₂.lower v k).low v ≤ k := by rw [hlow]; exact Nat.min_le_right _ _
  refine
    { invariant := hinv.lower v k
      grows := (h.grows.trans hgrows).lower hnew
      discovery_self := (hgrows.discovery_eq h.seen_self).trans h.discovery_self
      stack_eq := ⟨new' ++ new, ?_, ?_, ?_⟩
      low_le := hle₁.trans h.low_le
      low_reached := ?_
      seen := ?_
      bounded := ?_ }
  · rw [List.append_assoc, ← hnews]
    exact hnews'
  · intro x hx
    rcases List.mem_append.mp hx with hx | hx
    · exact fun hseen => hon'.fresh x hx (h.grows.seen hseen)
    · exact hon.fresh x hx
  · intro x hx y hy hys
    rcases List.mem_append.mp hx with hx | hx
    · have hys₁ : y ∈ s₁.stack := by rw [hnews]; simp [hys]
      have hk := hon'.bounded x hx y hy hys₁
      rw [h.grows.discovery_eq (hs.seen_of_stack y hys)] at hk
      exact hle₂.trans hk
    · exact hle₁.trans (hon.bounded x hx y hy hys)
  · rcases Nat.le_total (s₁.low v) k with hmin | hmin
    · obtain ⟨y, hy, hyd, hyr⟩ := h.low_reached
      have hy₂ : y ∈ s₂.stack := by rw [hnews']; simp [hy]
      have hyd₂ := hgrows.discovery_eq (h.invariant.seen_of_stack y hy)
      refine ⟨y, hy₂, ?_, hyr⟩
      rw [hlow, Nat.min_eq_left hmin, ← hyd, ← hyd₂]
      rfl
    · rcases hreached with hk | ⟨y, hy, hyd, hyr⟩
      · have := h.low_le
        have := h.nextIndex_lt
        omega
      · refine ⟨y, hy, ?_, hyr⟩
        rw [hlow, Nat.min_eq_right hmin, ← hyd]
        rfl
  · intro x hx
    rcases List.mem_append.mp hx with hx | hx
    · exact hgrows.seen (h.seen x hx)
    · exact List.mem_singleton.mp hx ▸ hseen
  · intro x hx hxs
    rcases List.mem_append.mp hx with hx | hx
    · exact hle₁.trans (h.bounded x hx hxs)
    · have hxw := List.mem_singleton.mp hx
      exact hle₂.trans (hxw ▸ hbound (hxw ▸ hxs))

end Exploring

end ModuleGraph.Component.Search
