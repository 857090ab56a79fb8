import ModuleGraph.Component
import ModuleGraph.Proofs.Adjacency
import ModuleGraph.Proofs.SortOrder
import Mathlib.Data.Finset.Card

namespace ModuleGraph

namespace Topology

variable {K : Type}

def Cyclic (t : Topology K) (v : Nat) : Prop :=
  v ∈ t.successors v ∨ ∃ w, w ≠ v ∧ t.Mutual v w

theorem Cyclic.lt_size {t : Topology K} {v : Nat} (h : t.Cyclic v) : v < t.size := by
  rcases h with hself | ⟨w, hw, hvw, _⟩
  · exact lt_size_of_mem_successors hself
  · rcases Relation.ReflTransGen.cases_head hvw with heq | ⟨x, hx, _⟩
    · exact absurd heq.symm hw
    · exact lt_size_of_mem_successors hx

/-- Whether a list holds the nodes that are mutually reachable with a node on a closed path, each once. -/
def IsCycle (t : Topology K) (c : List Nat) : Prop :=
  c.Nodup ∧ ∃ r, t.Cyclic r ∧ ∀ w, w ∈ c ↔ t.Mutual r w

theorem IsCycle.mutual {t : Topology K} {c : List Nat} (hc : t.IsCycle c) {v w : Nat} (hv : v ∈ c) :
    w ∈ c ↔ t.Mutual v w := by
  obtain ⟨_, r, _, hmem⟩ := hc
  have hrv := (hmem v).mp hv
  rw [hmem w]
  exact ⟨fun hrw => hrv.symm.trans hrw, fun hvw => hrv.trans hvw⟩

end Topology

namespace Component.Search

variable {K : Type} {t : Topology K} {calls : List Nat} {s : Search} {v w : Nat}

def Seen (s : Search) (v : Nat) : Prop :=
  s.index.getD v none ≠ none

def Closed (s : Search) (v : Nat) : Prop :=
  s.Seen v ∧ v ∉ s.stack

theorem Seen.lt_size (h : s.Seen v) : v < s.index.size := by
  by_contra hv
  exact h (getD_of_size_le (Nat.le_of_not_lt hv) none)

theorem index_eq_of_seen (h : s.Seen v) : s.index.getD v none = some (s.discovery v) := by
  obtain ⟨k, hk⟩ := Option.ne_none_iff_exists'.mp h
  rw [discovery, hk]
  rfl

theorem discovery_eq_of_index {s' : Search} (h : s.Seen v)
    (hi : s'.index.getD v none = s.index.getD v none) : s'.discovery v = s.discovery v := by
  obtain ⟨k, hk⟩ := Option.ne_none_iff_exists'.mp h
  rw [discovery, discovery, hi, hk]
  rfl

/-- Nodes are numbered in the order of discovery, and every number is given out once. -/
structure Numbered (t : Topology K) (s : Search) : Prop where
  index_size : s.index.size = t.size
  lowLink_size : s.lowLink.size = t.size
  onStack_size : s.onStack.size = t.size
  discovery_lt : ∀ v, s.Seen v → s.discovery v < s.nextIndex
  discovery_inj : ∀ v w, s.Seen v → s.Seen w → s.discovery v = s.discovery w → v = w
  discovery_surj : ∀ k < s.nextIndex, ∃ v, s.Seen v ∧ s.discovery v = k

/-- The stack holds discovered nodes, the latest first, and those of the open calls among them. -/
structure Stacked (calls : List Nat) (s : Search) : Prop where
  seen_of_stack : ∀ v ∈ s.stack, s.Seen v
  onStack_iff : ∀ v, s.onStack.getD v false = true ↔ v ∈ s.stack
  stack_sorted : s.stack.Pairwise fun later earlier => s.discovery earlier < s.discovery later
  calls_open : ∀ g ∈ calls, g ∈ s.stack

/-- What edges and paths join: closed nodes lead to closed nodes only, open calls reach the open nodes after
them, and open nodes reach an open call before them. -/
structure Linked (t : Topology K) (calls : List Nat) (s : Search) : Prop where
  explored : ∀ v, s.Seen v → v ∉ calls → ∀ w ∈ t.successors v, s.Seen w
  closed_succ : ∀ v, s.Closed v → ∀ w ∈ t.successors v, s.Closed w
  call_reaches : ∀ g ∈ calls, ∀ v ∈ s.stack, s.discovery g ≤ s.discovery v → t.Reaches g v
  reaches_call : ∀ v ∈ s.stack, ∃ g ∈ calls, s.discovery g ≤ s.discovery v ∧ t.Reaches v g

/-- The cycles found so far are those among the closed nodes, and no earlier one reaches a later one. -/
structure Records (t : Topology K) (s : Search) : Prop where
  isCycle : ∀ c ∈ s.cycles, t.IsCycle c
  closed : ∀ c ∈ s.cycles, ∀ x ∈ c, s.Closed x
  covered : ∀ x, s.Closed x → t.Cyclic x → ∃ c ∈ s.cycles, x ∈ c
  apart : s.cycles.Pairwise fun later earlier => ∀ x ∈ earlier, ∀ y ∈ later, ¬ t.Reaches x y

structure Invariant (t : Topology K) (calls : List Nat) (s : Search) : Prop extends
  Numbered t s, Stacked calls s, Linked t calls s, Records t s

theorem not_seen_start (n v : Nat) : ¬ (start n).Seen v := by
  intro h
  apply h
  simp only [start, Array.getD_eq_getD_getElem?]
  by_cases hv : v < n <;> simp [hv]

theorem invariant_start (t : Topology K) : Invariant t [] (start t.size) where
  index_size := by simp [start]
  lowLink_size := by simp [start]
  onStack_size := by simp [start]
  discovery_lt := fun v h => absurd h (not_seen_start _ v)
  discovery_inj := fun v w h => absurd h (not_seen_start _ v)
  discovery_surj := fun k hk => absurd hk (Nat.not_lt_zero k)
  seen_of_stack := fun v h => absurd h List.not_mem_nil
  onStack_iff := by
    intro v
    simp only [start, Array.getD_eq_getD_getElem?]
    by_cases hv : v < t.size <;> simp [hv]
  stack_sorted := List.Pairwise.nil
  calls_open := fun g h => absurd h List.not_mem_nil
  explored := fun v h => absurd h (not_seen_start _ v)
  closed_succ := fun v h => absurd h.1 (not_seen_start _ v)
  call_reaches := fun g h => absurd h List.not_mem_nil
  reaches_call := fun v h => absurd h List.not_mem_nil
  isCycle := fun c h => absurd h List.not_mem_nil
  closed := fun c h => absurd h List.not_mem_nil
  covered := fun x h => absurd h.1 (not_seen_start _ x)
  apart := List.Pairwise.nil

namespace Invariant

theorem closed_of_reaches (hs : Invariant t calls s) (hv : s.Closed v) (h : t.Reaches v w) : s.Closed w := by
  induction h with
  | refl => exact hv
  | tail _ hstep ih => exact hs.closed_succ _ ih _ hstep

theorem stack_eq_nil (hs : Invariant t [] s) : s.stack = [] := by
  refine List.eq_nil_iff_forall_not_mem.mpr fun x hx => ?_
  obtain ⟨g, hg, _⟩ := hs.reaches_call x hx
  exact List.not_mem_nil hg

theorem stack_nodup (hs : Invariant t calls s) : s.stack.Nodup :=
  hs.stack_sorted.imp fun hlt heq => absurd (heq ▸ hlt) (Nat.lt_irrefl _)

theorem nextIndex_lt (hs : Invariant t calls s) (hv : v < t.size) (hnew : ¬ s.Seen v) :
    s.nextIndex < t.size := by
  choose! node hnode using hs.discovery_surj
  have hmaps : ∀ k ∈ Finset.range s.nextIndex, node k ∈ (Finset.range t.size).erase v := by
    intro k hk
    have hk := hnode k (Finset.mem_range.mp hk)
    have hlt : node k < t.size := hs.index_size ▸ hk.1.lt_size
    refine Finset.mem_erase.mpr ⟨?_, Finset.mem_range.mpr hlt⟩
    intro heq
    exact hnew (heq ▸ hk.1)
  have hinj : Set.InjOn node (Finset.range s.nextIndex) := by
    intro k hk l hl heq
    have hk := hnode k (Finset.mem_range.mp hk)
    have hl := hnode l (Finset.mem_range.mp hl)
    rw [← hk.2, ← hl.2, heq]
  have hcard := Finset.card_le_card_of_injOn node hmaps hinj
  rw [Finset.card_range, Finset.card_erase_of_mem (Finset.mem_range.mpr hv), Finset.card_range] at hcard
  omega

end Invariant

end Component.Search

end ModuleGraph
