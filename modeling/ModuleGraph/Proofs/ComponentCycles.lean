import ModuleGraph.Proofs.ComponentClose

namespace ModuleGraph.Component.Search

variable {K : Type} {t : Topology K} {calls done : List Nat} {s s₁ : Search} {v w : Nat}

/-- How a call for a node explores one of its successors. -/
def explore (t : Topology K) (depth v : Nat) (s : Search) (w : Nat) : Search :=
  if s.index.getD w none = none then
    (visit t depth s w).lower v ((visit t depth s w).low w)
  else if s.onStack.getD w false then s.lower v (s.discovery w)
  else s

theorem visit_succ (t : Topology K) (depth : Nat) (s : Search) (v : Nat) :
    visit t (depth + 1) s v = ((t.successors v).foldl (explore t depth v) (s.discover v)).finish t v :=
  rfl

theorem reaches_of_mem_calls (hreach : ∀ g ∈ calls, t.Reaches g v) (hw : w ∈ t.successors v) :
    ∀ g ∈ v :: calls, t.Reaches g w :=
  List.forall_mem_cons.mpr ⟨.of_mem hw, fun g hg => (hreach g hg).trans (.of_mem hw)⟩

/-- A depth lets every call from an unseen node that the open calls reach do its work. -/
def DepthSuffices (t : Topology K) (depth : Nat) : Prop :=
  ∀ (calls : List Nat) (s : Search) (v : Nat), Invariant t calls s → v < t.size → ¬ s.Seen v →
    (∀ g ∈ calls, t.Reaches g v) → t.size ≤ depth + s.nextIndex → Visited t calls s v (visit t depth s v)

theorem Exploring.explore {depth : Nat} (ht : t.Bounded) (hdepth : DepthSuffices t depth)
    (hs : Invariant t calls s) (hnew : ¬ s.Seen v) (hreach : ∀ g ∈ calls, t.Reaches g v)
    (hsize : t.size ≤ depth + 1 + s.nextIndex) (h : Exploring t calls s v done s₁) (hw : w ∈ t.successors v) :
    Exploring t calls s v (done ++ [w]) (explore t depth v s₁ w) := by
  rw [Search.explore]
  split
  case isTrue hunseen =>
    have hunseen : ¬ s₁.Seen w := fun hseen => hseen hunseen
    have hnext := h.nextIndex_lt
    have hvisited := hdepth (v :: calls) s₁ w h.invariant (ht v w hw) hunseen (reaches_of_mem_calls hreach hw) (by omega)
    refine h.advance hs hnew hvisited.invariant hvisited.grows hvisited.stack_eq ?_ hvisited.seen ?_
    · refine hvisited.low_reached.imp_right ?_
      intro ⟨y, hy, hyd, hyr⟩
      exact ⟨y, hy, hyd, (Topology.Reaches.of_mem hw).trans hyr⟩
    · intro hws
      exact absurd (h.grows.seen (hs.seen_of_stack w hws)) hunseen
  case isFalse hseen =>
    have hseen : s₁.Seen w := hseen
    split
    case isTrue hopen =>
      have hopen := (h.invariant.onStack_iff w).mp hopen
      refine h.advance hs hnew h.invariant (.refl s₁) ⟨[], rfl, .nil t s₁ _⟩ ?_ hseen ?_
      · exact .inr ⟨w, hopen, rfl, .of_mem hw⟩
      · intro hws
        exact Nat.le_of_eq (h.grows.discovery_eq (hs.seen_of_stack w hws))
    case isFalse hclosed =>
      have hclosed : w ∉ s.stack := by
        intro hws
        obtain ⟨new, hstack, _⟩ := h.stack_eq
        exact hclosed ((h.invariant.onStack_iff w).mpr (by rw [hstack]; simp [hws]))
      refine { h with seen := ?_, bounded := ?_ }
      · intro x hx
        rcases List.mem_append.mp hx with hx | hx
        · exact h.seen x hx
        · exact List.mem_singleton.mp hx ▸ hseen
      · intro x hx hxs
        rcases List.mem_append.mp hx with hx | hx
        · exact h.bounded x hx hxs
        · exact absurd (List.mem_singleton.mp hx ▸ hxs) hclosed

theorem Exploring.foldl_explore {depth : Nat} (ht : t.Bounded) (hdepth : DepthSuffices t depth)
    (hs : Invariant t calls s) (hnew : ¬ s.Seen v) (hreach : ∀ g ∈ calls, t.Reaches g v)
    (hsize : t.size ≤ depth + 1 + s.nextIndex) {ws : List Nat} (hws : ∀ w ∈ ws, w ∈ t.successors v)
    (h : Exploring t calls s v done s₁) :
    Exploring t calls s v (done ++ ws) (ws.foldl (Search.explore t depth v) s₁) := by
  induction ws generalizing done s₁ with
  | nil => simpa using h
  | cons w ws ih =>
    have hnext := h.explore ht hdepth hs hnew hreach hsize (hws w List.mem_cons_self)
    have hrest := ih (fun x hx => hws x (List.mem_cons_of_mem w hx)) hnext
    simpa using hrest

theorem depthSuffices (ht : t.Bounded) (depth : Nat) : DepthSuffices t depth := by
  induction depth with
  | zero =>
    intro calls s v hs hv hnew _ hsize
    have hlt := hs.nextIndex_lt hv hnew
    omega
  | succ depth ih =>
    intro calls s v hs hv hnew hreach hsize
    have hstart : Exploring t calls s v [] (s.discover v) := .discover hs hv hnew hreach
    have hdone := hstart.foldl_explore ht ih hs hnew hreach hsize (fun w hw => hw)
    rw [visit_succ]
    exact Exploring.finish hs hnew hdone

/-- A call for a node can be made: the node is new, and all open calls reach it. -/
structure CanVisit (t : Topology K) (calls : List Nat) (s : Search) (v : Nat) : Prop where
  invariant : Invariant t calls s
  lt_size : v < t.size
  unseen : ¬ s.Seen v
  reached : ∀ g ∈ calls, t.Reaches g v

theorem CanVisit.root (hs : Invariant t [] s) (hv : v < t.size) (hnew : ¬ s.Seen v) : CanVisit t [] s v :=
  ⟨hs, hv, hnew, fun _ hg => absurd hg List.not_mem_nil⟩

/-- What is to be shown of calls. Something holds within a call once its node is discovered and goes on holding from
successor to successor; when all are explored and the call is over, what was to be shown of it holds. -/
structure VisitRules (t : Topology K) (Within : List Nat → Search → Nat → List Nat → Search → Prop)
    (Done : List Nat → Search → Nat → Search → Prop) : Prop where
  start : ∀ {calls s v}, CanVisit t calls s v → Within calls s v [] (s.discover v)
  skip : ∀ {calls s v done s₁ w}, CanVisit t calls s v → Exploring t calls s v done s₁ →
    done ++ [w] <+: t.successors v → s₁.Seen w → Within calls s v done s₁ →
      Within calls s v (done ++ [w]) (if s₁.onStack.getD w false then s₁.lower v (s₁.discovery w) else s₁)
  enter : ∀ {calls s v done s₁ w s₂}, CanVisit t calls s v → CanVisit t (v :: calls) s₁ w →
    done ++ [w] <+: t.successors v → Within calls s v done s₁ → Done (v :: calls) s₁ w s₂ →
      Within calls s v (done ++ [w]) (s₂.lower v (s₂.low w))
  finish : ∀ {calls s v s₁}, CanVisit t calls s v → Exploring t calls s v (t.successors v) s₁ →
    Within calls s v (t.successors v) s₁ → Done calls s v (s₁.finish t v)

section Rules

variable {Within : List Nat → Search → Nat → List Nat → Search → Prop} {Done : List Nat → Search → Nat → Search → Prop}
  {depth : Nat} (ht : t.Bounded) (rules : VisitRules t Within Done)
include ht rules

theorem VisitRules.foldl_explore
    (hcalls : ∀ {calls s v}, CanVisit t calls s v → t.size ≤ depth + s.nextIndex → Done calls s v (visit t depth s v))
    (h : CanVisit t calls s v) (hsize : t.size ≤ depth + 1 + s.nextIndex) {ws : List Nat}
    (hws : done ++ ws = t.successors v) (he : Exploring t calls s v done s₁) (hwithin : Within calls s v done s₁) :
    Exploring t calls s v (t.successors v) (ws.foldl (Search.explore t depth v) s₁) ∧
      Within calls s v (t.successors v) (ws.foldl (Search.explore t depth v) s₁) := by
  induction ws generalizing done s₁ with
  | nil =>
    rw [List.append_nil] at hws
    exact hws ▸ ⟨he, hwithin⟩
  | cons w ws ih =>
    have hprefix : done ++ [w] <+: t.successors v := ⟨ws, by rw [← hws, List.append_assoc]; rfl⟩
    have hw : w ∈ t.successors v := hprefix.subset (by simp)
    have hnext := he.explore ht (depthSuffices ht depth) h.invariant h.unseen h.reached hsize hw
    refine ih (by rw [← hws, List.append_assoc]; rfl) hnext ?_
    rw [Search.explore]
    by_cases hseen : s₁.Seen w
    · rw [if_neg hseen]
      exact rules.skip h he hprefix hseen hwithin
    · have hlt := he.nextIndex_lt
      have hcan : CanVisit t (v :: calls) s₁ w := ⟨he.invariant, ht v w hw, hseen, reaches_of_mem_calls h.reached hw⟩
      rw [if_pos (not_not.mp hseen)]
      exact rules.enter h hcan hprefix hwithin (hcalls hcan (by omega))

theorem VisitRules.visit (h : CanVisit t calls s v) (hsize : t.size ≤ depth + s.nextIndex) :
    Done calls s v (visit t depth s v) := by
  induction depth generalizing calls s v with
  | zero =>
    have hlt := h.invariant.nextIndex_lt h.lt_size h.unseen
    omega
  | succ depth ih =>
    have hstart : Exploring t calls s v [] (s.discover v) := .discover h.invariant h.lt_size h.unseen h.reached
    obtain ⟨hexplored, hwithin⟩ := rules.foldl_explore ht ih h hsize (List.nil_append _) hstart (rules.start h)
    rw [visit_succ]
    exact rules.finish h hexplored hwithin

end Rules

theorem Invariant.visitRoot (ht : t.Bounded) (hs : Invariant t [] s) (hv : v < t.size) :
    Invariant t [] (visitRoot t s v) ∧ (visitRoot t s v).Seen v ∧ ∀ x, s.Seen x → (visitRoot t s v).Seen x := by
  rw [Search.visitRoot]
  split
  case isTrue hunseen =>
    have hvisited := depthSuffices ht t.size [] s v hs hv (fun hseen => hseen hunseen)
      (fun g hg => absurd hg List.not_mem_nil) (Nat.le_add_right _ _)
    exact ⟨hvisited.invariant, hvisited.seen, fun x hx => hvisited.grows.seen hx⟩
  case isFalse hseen => exact ⟨hs, hseen, fun x hx => hx⟩

theorem foldl_visitRoot (ht : t.Bounded) {roots : List Nat} (hroots : ∀ v ∈ roots, v < t.size)
    (hs : Invariant t [] s) :
    Invariant t [] (roots.foldl (Search.visitRoot t) s) ∧
      (∀ v ∈ roots, (roots.foldl (Search.visitRoot t) s).Seen v) ∧
        ∀ x, s.Seen x → (roots.foldl (Search.visitRoot t) s).Seen x := by
  induction roots generalizing s with
  | nil => exact ⟨hs, fun v hv => absurd hv List.not_mem_nil, fun x hx => hx⟩
  | cons r roots ih =>
    obtain ⟨hinv, hseen, hmono⟩ := hs.visitRoot ht (hroots r List.mem_cons_self)
    obtain ⟨hinv', hseen', hmono'⟩ := ih (fun v hv => hroots v (List.mem_cons_of_mem r hv)) hinv
    refine ⟨hinv', ?_, fun x hx => hmono' x (hmono x hx)⟩
    intro v hv
    rcases List.mem_cons.mp hv with hvr | hv
    · exact hvr ▸ hmono' r hseen
    · exact hseen' v hv

end ModuleGraph.Component.Search

namespace ModuleGraph.Component

variable {K : Type} {t : Topology K}

theorem final_closed (ht : t.Bounded) :
    Search.Invariant t [] ((List.range t.size).foldl (Search.visitRoot t) (.start t.size)) ∧
      ∀ v < t.size, ((List.range t.size).foldl (Search.visitRoot t) (.start t.size)).Closed v := by
  obtain ⟨hinv, hseen, _⟩ := Search.foldl_visitRoot ht (fun v hv => List.mem_range.mp hv) (Search.invariant_start t)
  refine ⟨hinv, fun v hv => ⟨hseen v (List.mem_range.mpr hv), ?_⟩⟩
  rw [hinv.stack_eq_nil]
  exact List.not_mem_nil

theorem isCycle_of_mem_cycles (ht : t.Bounded) {c : List Nat} (hc : c ∈ cycles t) : t.IsCycle c :=
  (final_closed ht).1.isCycle c (List.mem_reverse.mp hc)

theorem exists_mem_cycles (ht : t.Bounded) {v : Nat} (hv : v < t.size) (hcyc : t.Cyclic v) :
    ∃ c ∈ cycles t, v ∈ c := by
  obtain ⟨hinv, hclosed⟩ := final_closed ht
  obtain ⟨c, hc, hvc⟩ := hinv.covered v (hclosed v hv) hcyc
  exact ⟨c, List.mem_reverse.mpr hc, hvc⟩

theorem cycles_pairwise (ht : t.Bounded) :
    (cycles t).Pairwise fun earlier later => ∀ x ∈ earlier, ∀ y ∈ later, ¬ t.Reaches x y :=
  List.pairwise_reverse.mpr (final_closed ht).1.apart

end ModuleGraph.Component
