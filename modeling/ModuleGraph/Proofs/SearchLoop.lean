import ModuleGraph.Proofs.DepthFirst
import Mathlib.Algebra.BigOperators.Ring.Finset

namespace ModuleGraph.Component

variable {K : Type}

namespace Search

/-- The number of a node; only a discovered node has one. -/
def discovery? (s : Search) (v : Nat) : Option Nat :=
  s.index[v]?.join

def discover? (s : Search) (v : Nat) : Option Search :=
  if v < s.index.size ∧ v < s.lowLink.size ∧ v < s.onStack.size then some (s.discover v) else none

def lower? (s : Search) (v reached : Nat) : Option Search :=
  if v < s.lowLink.size then some (s.lower v reached) else none

/-- Closes a component whose members all have a flag to clear and a number to be ordered by. -/
def close? (t : Topology K) (s : Search) (v : Nat) : Option Search :=
  if ∀ w ∈ (popTo v s.stack).1, w < s.onStack.size ∧ (s.discovery? w).isSome then some (s.close t v) else none

def finish? (t : Topology K) (s : Search) (v : Nat) : Option Search := do
  let low ← s.lowLink[v]?
  let number ← s.index[v]?
  if some low = number then s.close? t v else some s

end Search

/-- The search as a loop: its open calls, the innermost first, each with its node and the place of the successor to be
explored next. -/
structure Loop where
  calls : List (Nat × Nat)
  search : Search

namespace Loop

/-- Explores a successor of the node of the innermost call. -/
def explore? (calls : List (Nat × Nat)) (v place w : Nat) (s : Search) : Option Loop := do
  let number ← s.index[w]?
  if number = none then
    let s ← s.discover? w
    some ⟨(w, 0) :: (v, place + 1) :: calls, s⟩
  else
    let isOpen ← s.onStack[w]?
    if isOpen then
      let reached ← s.discovery? w
      let s ← s.lower? v reached
      some ⟨(v, place + 1) :: calls, s⟩
    else
      some ⟨(v, place + 1) :: calls, s⟩

/-- Ends the innermost call: its caller learns what its node reaches, and the component of the node is closed if the node
is its root. -/
def leave? (t : Topology K) (calls : List (Nat × Nat)) (v : Nat) (s : Search) : Option Loop := do
  let low ← s.lowLink[v]?
  let s ← match calls with
    | [] => some s
    | (caller, _) :: _ => s.lower? caller low
  let s ← s.finish? t v
  some ⟨calls, s⟩

/-- A turn of the loop. There is none if it would look outside an array or ask for the number of a node that has none. -/
def turn (t : Topology K) (l : Loop) : Option Loop :=
  match l.calls with
  | [] => some l
  | (v, place) :: calls =>
    match (t.successors v)[place]? with
    | some w => explore? calls v place w l.search
    | none => leave? t calls v l.search

def run (t : Topology K) : (turns : Nat) → Loop → Option Loop
  | 0, l => some l
  | turns + 1, l => (l.turn t).bind (run t turns)

theorem run_add (t : Topology K) (j k : Nat) (l : Loop) : run t (j + k) l = (run t j l).bind (run t k) := by
  induction j generalizing l with
  | zero => simp [run]
  | succ j ih =>
    rw [Nat.succ_add, run, run, Option.bind_assoc]
    exact Option.bind_congr fun l' _ => ih l'

theorem run_trans {t : Topology K} {j k : Nat} {l l' l'' : Loop} (h : run t j l = some l') (h' : run t k l' = some l'') :
    run t (j + k) l = some l'' := by
  rw [run_add, h, Option.bind_some, h']

theorem run_one {t : Topology K} {l l' : Loop} (h : l.turn t = some l') : run t 1 l = some l' := by
  rw [run, h]
  rfl

end Loop

namespace Search

variable {t : Topology K} {s : Search} {v w : Nat}

theorem getElem?_eq_getD {α : Type} {a : Array α} {i : Nat} (hi : i < a.size) (d : α) : a[i]? = some (a.getD i d) := by
  simp [hi]

theorem discovery?_eq_getD (s : Search) (v : Nat) : s.discovery? v = s.index.getD v none := by
  rw [discovery?, Array.getD_eq_getD_getElem?]
  cases s.index[v]? <;> rfl

theorem discovery?_eq (h : s.Seen v) : s.discovery? v = some (s.discovery v) := by
  rw [discovery?_eq_getD, index_eq_of_seen h]

theorem index?_of_seen (h : s.Seen v) : s.index[v]? = some (some (s.discovery v)) := by
  rw [getElem?_eq_getD h.lt_size none, index_eq_of_seen h]

theorem index?_of_not_seen (hs : Numbered t s) (hv : v < t.size) (h : ¬ s.Seen v) : s.index[v]? = some none := by
  rw [getElem?_eq_getD (by rw [hs.index_size]; exact hv) none, not_not.mp h]

theorem discover?_eq (hs : Numbered t s) (hv : v < t.size) : s.discover? v = some (s.discover v) := by
  refine if_pos ?_
  rw [hs.index_size, hs.lowLink_size, hs.onStack_size]
  exact ⟨hv, hv, hv⟩

theorem low?_eq (hs : Numbered t s) (hv : v < t.size) : s.lowLink[v]? = some (s.low v) :=
  getElem?_eq_getD (by rw [hs.lowLink_size]; exact hv) 0

theorem lower?_eq (hs : Numbered t s) (hv : v < t.size) (k : Nat) : s.lower? v k = some (s.lower v k) :=
  if_pos (by rw [hs.lowLink_size]; exact hv)

theorem mem_stack_of_popTo {stack : List Nat} (h : w ∈ (popTo v stack).1) : w ∈ stack := by
  induction stack with
  | nil => exact h
  | cons x stack ih =>
    rw [popTo] at h
    split at h
    · exact List.mem_singleton.mp h ▸ List.mem_cons_self
    · exact (List.mem_cons.mp h).elim (fun hw => hw ▸ List.mem_cons_self) fun hw => List.mem_cons_of_mem x (ih hw)

theorem close?_eq (hs : Numbered t s) (hstack : ∀ w ∈ s.stack, s.Seen w) (v : Nat) :
    s.close? t v = some (s.close t v) := by
  refine if_pos fun w hw => ?_
  have hseen := hstack w (mem_stack_of_popTo hw)
  refine ⟨?_, by rw [discovery?_eq hseen]; rfl⟩
  rw [hs.onStack_size, ← hs.index_size]
  exact hseen.lt_size

theorem finish?_eq (hs : Numbered t s) (hstack : ∀ w ∈ s.stack, s.Seen w) (hv : v < t.size) :
    s.finish? t v = some (s.finish t v) := by
  have hindex : s.index[v]? = some (s.index.getD v none) :=
    getElem?_eq_getD (by rw [hs.index_size]; exact hv) none
  unfold finish? finish
  simp only [low?_eq hs hv, hindex, close?_eq hs hstack, Option.bind_eq_bind, Option.bind_some]
  split
  · rfl
  · rfl

def tellCaller (calls : List (Nat × Nat)) (s : Search) (v : Nat) : Search :=
  match calls with
  | [] => s
  | (caller, _) :: _ => s.lower caller (s.low v)

theorem low_close (t : Topology K) (s : Search) (v w : Nat) : (s.close t v).low w = s.low w := by
  unfold close
  dsimp only
  split <;> rfl

theorem index_close (t : Topology K) (s : Search) (v : Nat) : (s.close t v).index = s.index := by
  unfold close
  dsimp only
  split <;> rfl

theorem low_finish (t : Topology K) (s : Search) (v w : Nat) : (s.finish t v).low w = s.low w := by
  unfold finish
  split
  · exact low_close t s v w
  · rfl

theorem index_finish (t : Topology K) (s : Search) (v : Nat) : (s.finish t v).index = s.index := by
  unfold finish
  split
  · exact index_close t s v
  · rfl

theorem close_lower (t : Topology K) (s : Search) (v u k : Nat) :
    (s.lower u k).close t v = (s.close t v).lower u k := by
  unfold close lower
  dsimp only
  split <;> rfl

theorem low_lower_low (s : Search) (u v : Nat) : (s.lower u (s.low v)).low v = s.low v := by
  by_cases huv : u = v
  · subst huv
    by_cases hu : u < s.lowLink.size
    · rw [low_lower_self hu, Nat.min_self]
    · unfold low lower
      rw [getD_of_size_le (by simpa using hu), getD_of_size_le (by simpa using hu)]
  · exact low_lower_of_ne huv _

/-- It does not matter whether the caller learns what the node reaches before or after its component is closed. -/
theorem finish_tellCaller (t : Topology K) (calls : List (Nat × Nat)) (s : Search) (v : Nat) :
    (tellCaller calls s v).finish t v = tellCaller calls (s.finish t v) v := by
  cases calls with
  | nil => rfl
  | cons call calls =>
    unfold tellCaller
    dsimp only
    rw [low_finish, finish, finish, low_lower_low]
    show (if some (s.low v) = s.index.getD v none then _ else _) = _
    split
    · exact close_lower t s v call.1 (s.low v)
    · rfl

end Search

namespace Loop

open Search

variable {t : Topology K} {s : Search} {calls : List (Nat × Nat)} {v w place : Nat}

theorem explore?_of_not_seen (hs : Numbered t s) (hw : w < t.size) (hnew : ¬ s.Seen w) :
    explore? calls v place w s = some ⟨(w, 0) :: (v, place + 1) :: calls, s.discover w⟩ := by
  simp only [explore?, index?_of_not_seen hs hw hnew, discover?_eq hs hw, Option.bind_eq_bind, Option.bind_some, if_true]

theorem explore?_of_seen (hs : Numbered t s) (hv : v < t.size) (hseen : s.Seen w) :
    explore? calls v place w s =
      some ⟨(v, place + 1) :: calls, if s.onStack.getD w false then s.lower v (s.discovery w) else s⟩ := by
  have hflag : s.onStack[w]? = some (s.onStack.getD w false) :=
    getElem?_eq_getD (by rw [hs.onStack_size, ← hs.index_size]; exact hseen.lt_size) false
  simp only [explore?, index?_of_seen hseen, hflag, discovery?_eq hseen, lower?_eq hs hv, Option.bind_eq_bind,
    Option.bind_some, reduceCtorEq, if_false]
  split
  · rfl
  · rfl

theorem leave?_eq (hs : Numbered t s) (hstack : ∀ w ∈ s.stack, s.Seen w) (hv : v < t.size)
    (hcalls : ∀ c ∈ calls, c.1 < t.size) :
    leave? t calls v s = some ⟨calls, tellCaller calls (s.finish t v) v⟩ := by
  have hfinish : (tellCaller calls s v).finish? t v = some (tellCaller calls (s.finish t v) v) := by
    rw [← finish_tellCaller]
    cases calls with
    | nil => exact finish?_eq hs hstack hv
    | cons call calls => exact finish?_eq (hs.lower call.1 (s.low v)) hstack hv
  cases calls with
  | nil =>
    have hfinish : s.finish? t v = some (s.finish t v) := hfinish
    simp only [leave?, low?_eq hs hv, hfinish, Option.bind_eq_bind, Option.bind_some]
    rfl
  | cons call calls =>
    have hlower := lower?_eq hs (hcalls call List.mem_cons_self) (s.low v)
    have hfinish : (s.lower call.1 (s.low v)).finish? t v = some (tellCaller (call :: calls) (s.finish t v) v) := hfinish
    simp only [leave?, low?_eq hs hv, hlower, hfinish, Option.bind_eq_bind, Option.bind_some]

theorem turn_explore (hplace : (t.successors v)[place]? = some w) :
    turn t ⟨(v, place) :: calls, s⟩ = explore? calls v place w s := by
  simp only [turn, hplace]

theorem turn_leave (hplace : (t.successors v)[place]? = none) :
    turn t ⟨(v, place) :: calls, s⟩ = leave? t calls v s := by
  simp only [turn, hplace]

end Loop

namespace Search

variable {t : Topology K} {s : Search} {v : Nat}

instance (s : Search) (v : Nat) : Decidable (s.Seen v) :=
  inferInstanceAs (Decidable (_ ≠ _))

/-- The turns that the nodes discovered so far take: one for each of them and one for each edge that leaves it. -/
def work (t : Topology K) (s : Search) : Nat :=
  ∑ v ∈ Finset.range t.size with s.Seen v, ((t.successors v).length + 1)

theorem work_congr {s' : Search} (h : s'.index = s.index) : work t s' = work t s := by
  have hset : (Finset.range t.size).filter s'.Seen = (Finset.range t.size).filter s.Seen :=
    Finset.filter_congr fun x _ => by rw [Seen, Seen, h]
  rw [work, work, hset]

theorem work_discover (hs : s.index.size = t.size) (hv : v < t.size) (hnew : ¬ s.Seen v) :
    work t (s.discover v) = work t s + ((t.successors v).length + 1) := by
  have hset : (Finset.range t.size).filter (s.discover v).Seen = insert v ((Finset.range t.size).filter s.Seen) := by
    ext x
    rw [Finset.mem_filter, Finset.mem_insert, Finset.mem_filter, seen_discover (by rw [hs]; exact hv)]
    constructor
    · rintro ⟨hx, rfl | hseen⟩
      · exact .inl rfl
      · exact .inr ⟨hx, hseen⟩
    · rintro (rfl | ⟨hx, hseen⟩)
      · exact ⟨Finset.mem_range.mpr hv, .inl rfl⟩
      · exact ⟨hx, .inr hseen⟩
  rw [work, hset, Finset.sum_insert (fun hmem => hnew (Finset.mem_filter.mp hmem).2), Nat.add_comm]
  rfl

end Search

namespace Loop

open Search

theorem getElem?_next {t : Topology K} {done : List Nat} {v w : Nat} (h : done ++ [w] <+: t.successors v) :
    (t.successors v)[done.length]? = some w := by
  obtain ⟨after, h⟩ := h
  rw [← h, List.append_assoc, List.getElem?_append_right le_rfl, Nat.sub_self]
  rfl

/-- The loop does what the recursive search does. Before a call for a node is over, it has explored some successors of the
node, in a turn for each one and in the turns of the nodes discovered since; then it ends the call in another turn. -/
theorem callsInTurns (t : Topology K) : VisitRules t
    (fun calls s v done s₁ => ∀ rest : List (Nat × Nat), rest.map (·.1) = calls →
      ∃ turns, run t turns ⟨(v, 0) :: rest, s.discover v⟩ = some ⟨(v, done.length) :: rest, s₁⟩ ∧
        turns + work t (s.discover v) = done.length + work t s₁)
    (fun calls s v s₁ => ∀ rest : List (Nat × Nat), rest.map (·.1) = calls →
      ∃ turns, run t turns ⟨(v, 0) :: rest, s.discover v⟩ = some ⟨rest, tellCaller rest s₁ v⟩ ∧
        turns + work t s = work t s₁) where
  start _ rest _ := ⟨0, rfl, rfl⟩
  skip {_ s v done s₁ w} h he hw hseen hwithin rest hrest := by
    obtain ⟨turns, hrun, hwork⟩ := hwithin rest hrest
    have hsame : work t (if s₁.onStack.getD w false then s₁.lower v (s₁.discovery w) else s₁) = work t s₁ := by
      split
      · rfl
      · rfl
    rw [hsame, List.length_append, List.length_singleton]
    refine ⟨turns + 1, run_trans hrun (run_one ?_), by omega⟩
    rw [turn_explore (getElem?_next hw), explore?_of_seen he.invariant.toNumbered h.lt_size hseen]
  enter {_ s v done s₁ w s₂} h hcan hw hwithin hdone rest hrest := by
    obtain ⟨turns, hrun, hwork⟩ := hwithin rest hrest
    obtain ⟨turns', hrun', hwork'⟩ := hdone ((v, done.length + 1) :: rest) (congrArg (v :: ·) hrest)
    have hcall : turn t ⟨(v, done.length) :: rest, s₁⟩ =
        some ⟨(w, 0) :: (v, done.length + 1) :: rest, s₁.discover w⟩ := by
      rw [turn_explore (getElem?_next hw), explore?_of_not_seen hcan.invariant.toNumbered hcan.lt_size hcan.unseen]
    have hsame : work t (s₂.lower v (s₂.low w)) = work t s₂ := rfl
    rw [hsame, List.length_append, List.length_singleton]
    exact ⟨turns + (1 + turns'), run_trans hrun (run_trans (run_one hcall) hrun'), by omega⟩
  finish {calls s v s₁} h he hwithin rest hrest := by
    obtain ⟨turns, hrun, hwork⟩ := hwithin rest hrest
    have hframes : ∀ c ∈ rest, c.1 < t.size := by
      intro c hc
      have hopen := h.invariant.calls_open c.1 (hrest ▸ List.mem_map_of_mem hc)
      rw [← h.invariant.index_size]
      exact (h.invariant.seen_of_stack c.1 hopen).lt_size
    refine ⟨turns + 1, run_trans hrun (run_one ?_), ?_⟩
    · rw [turn_leave (List.getElem?_eq_none le_rfl)]
      exact leave?_eq he.invariant.toNumbered he.invariant.seen_of_stack h.lt_size hframes
    · have hdiscover := work_discover h.invariant.index_size h.lt_size h.unseen
      rw [work_congr (index_finish t s₁ v)]
      omega

end Loop

end ModuleGraph.Component
