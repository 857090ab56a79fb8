import ModuleGraph.Proofs.DoubleOrder

namespace ModuleGraph

section Criteria

variable {α : Type}

/-- In the order of some criteria: by the first one that puts either before the other. -/
def InOrder : List (α → α → Prop) → α → α → Prop
  | [], _, _ => True
  | first :: rest, a, b => first a b ∨ ¬first b a ∧ InOrder rest a b

/-- A comparison goes by a criterion: its outcome says which of two elements the criterion puts first, if any. -/
structure GoesBy (cmp : α → α → Ordering) (criterion : α → α → Prop) : Prop where
  lt_iff : ∀ a b, cmp a b = .lt ↔ criterion a b
  eq_iff : ∀ a b, cmp a b = .eq ↔ ¬criterion a b ∧ ¬criterion b a

/-- A comparison puts elements in the order of some criteria. -/
def Follows (cmp : α → α → Ordering) (criteria : List (α → α → Prop)) : Prop :=
  ∀ a b, (cmp a b).isLE = true ↔ InOrder criteria a b

theorem GoesBy.follows {cmp : α → α → Ordering} {criterion : α → α → Prop} (h : GoesBy cmp criterion) :
    Follows cmp [criterion] := by
  intro a b
  have hle : (cmp a b).isLE = true ↔ cmp a b = .lt ∨ cmp a b = .eq := by cases cmp a b <;> simp
  rw [hle, h.lt_iff, h.eq_iff, InOrder, InOrder, and_true]
  tauto

theorem GoesBy.follows_then {cmp cmp' : α → α → Ordering} {criterion : α → α → Prop} {rest : List (α → α → Prop)}
    (h : GoesBy cmp criterion) (hrest : Follows cmp' rest) :
    Follows (fun a b => (cmp a b).then (cmp' a b)) (criterion :: rest) := by
  intro a b
  rw [InOrder, ← hrest a b]
  have hlt := h.lt_iff a b
  have heq := h.eq_iff a b
  cases hcmp : cmp a b with
  | lt => simp [hcmp, hlt.mp hcmp]
  | eq => simp [hcmp, heq.mp hcmp]
  | gt =>
    rw [hcmp] at hlt heq
    have hnot : ¬criterion a b := fun hab => nomatch hlt.mpr hab
    have hafter : criterion b a := by
      by_contra hba
      exact nomatch heq.mpr ⟨hnot, hba⟩
    simp [hcmp, hnot, hafter]

end Criteria

theorem map_eq_of_sorted {α β : Type} {related : α → α → Prop} {f : α → β} {xs ys : List α} (h : xs.Perm ys)
    (hxs : xs.Pairwise related) (hys : ys.Pairwise related)
    (hsame : ∀ a ∈ xs, ∀ b ∈ xs, related a b → related b a → f a = f b) : xs.map f = ys.map f := by
  induction xs generalizing ys with
  | nil => rw [h.nil_eq]
  | cons a xs ih =>
    obtain ⟨before, after, rfl⟩ := List.append_of_mem (h.subset List.mem_cons_self)
    obtain ⟨hrelated, hxs⟩ := List.pairwise_cons.mp hxs
    have hrest : xs.Perm (before ++ after) := (h.trans List.perm_middle).cons_inv
    -- What comes before the first element in the other arrangement is inseparable from it.
    have hbefore : ∀ b ∈ before, f b = f a := by
      intro b hb
      have hmem : b ∈ xs := hrest.symm.subset (List.mem_append_left after hb)
      have hba : related b a := (List.pairwise_append.mp hys).2.2 b hb a List.mem_cons_self
      exact hsame b (List.mem_cons_of_mem a hmem) a List.mem_cons_self hba (hrelated b hmem)
    have hmap : before.map f = List.replicate before.length (f a) := by
      rw [List.eq_replicate_iff]
      refine ⟨List.length_map f, fun y hy => ?_⟩
      obtain ⟨b, hb, rfl⟩ := List.mem_map.mp hy
      exact hbefore b hb
    have hsorted : (before ++ after).Pairwise related :=
      hys.sublist ((List.sublist_cons_self a after).append_left before)
    have htail : xs.map f = (before ++ after).map f :=
      ih hrest hxs hsorted fun b hb c hc => hsame b (List.mem_cons_of_mem a hb) c (List.mem_cons_of_mem a hc)
    calc (a :: xs).map f = f a :: (List.replicate before.length (f a) ++ after.map f) := by
          rw [List.map_cons, htail, List.map_append, hmap]
      _ = List.replicate before.length (f a) ++ f a :: after.map f := by
          rw [← List.cons_append, ← List.replicate_succ, List.replicate_succ', List.append_assoc, List.singleton_append]
      _ = (before ++ a :: after).map f := by rw [List.map_append, List.map_cons, hmap]

/-- All that a node is ranked by are numbers. -/
structure Node.HasNumbers (n : Node Float) : Prop where
  pageRank : n.metrics.pageRank.isNaN = false
  betweenness : n.metrics.betweenness.isNaN = false
  score : n.file.score.isNaN = false

instance : DecidablePred Node.HasNumbers := fun n =>
  decidable_of_iff (n.metrics.pageRank.isNaN = false ∧ n.metrics.betweenness.isNaN = false ∧ n.file.score.isNaN = false)
    ⟨fun h => ⟨h.1, h.2.1, h.2.2⟩, fun h => ⟨h.pageRank, h.betweenness, h.score⟩⟩

namespace Rankings

open Scalar

section NodeCriteria

variable {K : Type}

def more (count : Node K → Nat) (a b : Node K) : Prop :=
  count b < count a

theorem goesBy_more (count : Node K → Nat) : GoesBy (fun a b => compare (count b) (count a)) (more count) where
  lt_iff a b := compare_lt_iff_lt
  eq_iff a b := by
    rw [compare_eq_iff_eq]
    unfold more
    omega

theorem goesBy_id : GoesBy (fun a b : Node K => compare a.id b.id) fun a b => a.id < b.id where
  lt_iff a b := compare_lt_iff_lt
  eq_iff a b := by
    rw [compare_eq_iff_eq]
    constructor
    · intro h
      simp [h]
    · rintro ⟨hle, hge⟩
      exact le_antisymm (not_lt.mp hge) (not_lt.mp hle)

variable [Scalar K]

def higher (number : Node K → K) (a b : Node K) : Prop :=
  less (number b) (number a) = true

theorem goesBy_descending (number : Node K → K) :
    GoesBy (fun a b => descending (number a) (number b)) (higher number) := by
  have hcases : ∀ a b, (descending (number a) (number b) = .lt ↔ higher number a b) ∧
      (descending (number a) (number b) = .eq ↔ ¬higher number a b ∧ ¬higher number b a) := by
    intro a b
    unfold descending order higher
    by_cases hlt : less (number b) (number a) = true
    · simp [hlt]
    · by_cases hgt : less (number a) (number b) = true <;> simp [hlt, hgt]
  exact ⟨fun a b => (hcases a b).1, fun a b => (hcases a b).2⟩

/-- Rank, betweenness, incoming edges and score, all descending, then the id. -/
def importanceCriteria : List (Node K → Node K → Prop) :=
  [higher (·.metrics.pageRank), higher (·.metrics.betweenness), more (·.metrics.inDegree), higher (·.file.score),
    fun a b => a.id < b.id]

/-- Degree, rank and score, all descending, then the id. -/
def connectivityCriteria : List (Node K → Node K → Prop) :=
  [more (·.metrics.degree), higher (·.metrics.pageRank), higher (·.file.score), fun a b => a.id < b.id]

def bridgingCriteria : List (Node K → Node K → Prop) :=
  higher (·.metrics.betweenness) :: importanceCriteria

theorem importance_follows : Follows (importance : Node K → Node K → Ordering) importanceCriteria :=
  (goesBy_descending _).follows_then <| (goesBy_descending _).follows_then <| (goesBy_more _).follows_then <|
    (goesBy_descending _).follows_then goesBy_id.follows

theorem connectivity_follows : Follows (connectivity : Node K → Node K → Ordering) connectivityCriteria :=
  (goesBy_more _).follows_then <| (goesBy_descending _).follows_then <|
    (goesBy_descending _).follows_then goesBy_id.follows

theorem bridging_follows : Follows (bridging : Node K → Node K → Ordering) bridgingCriteria :=
  (goesBy_descending _).follows_then importance_follows

end NodeCriteria

abbrev NumberedNode : Type :=
  { n : Node Float // n.HasNumbers }

/-- A comparison orders numbered nodes by some criteria: it is a total preorder, the one of the criteria, and nodes that
it does not separate have the same id. -/
structure Orders (cmp : Node Float → Node Float → Ordering) (criteria : List (Node Float → Node Float → Prop)) :
    Prop where
  preorder : Std.TransCmp fun a b : NumberedNode => cmp a.val b.val
  follows : Follows cmp criteria
  id_eq : ∀ a b, cmp a b = .eq → a.id = b.id

section Preorder

theorem transCmp_numbers (number : Node Float → Float) (h : ∀ n : Node Float, n.HasNumbers → (number n).isNaN = false) :
    Std.TransCmp fun a b : NumberedNode => descending (number a.val) (number b.val) := by
  have hopposite : Std.TransCmp fun x y : Number => order y.val x.val :=
    @Std.TransCmp.opposite Number (fun x y => order x.val y.val) _
  exact transCmp_on (fun x y : Number => order y.val x.val) fun a : NumberedNode => ⟨number a.val, h a.val a.property⟩

theorem importance_orders : Orders importance importanceCriteria where
  preorder := by
    have hrank := transCmp_numbers (·.metrics.pageRank) fun _ h => h.pageRank
    have hbetween := transCmp_numbers (·.metrics.betweenness) fun _ h => h.betweenness
    have hscore := transCmp_numbers (·.file.score) fun _ h => h.score
    exact @transCmp_importance_on Float _ NumberedNode Subtype.val hrank hbetween hscore
  follows := importance_follows
  id_eq _ _ := id_eq_of_importance

theorem connectivity_orders : Orders connectivity connectivityCriteria where
  preorder := by
    have hrank := transCmp_numbers (·.metrics.pageRank) fun _ h => h.pageRank
    have hscore := transCmp_numbers (·.file.score) fun _ h => h.score
    exact @transCmp_connectivity_on Float _ NumberedNode Subtype.val hrank hscore
  follows := connectivity_follows
  id_eq _ _ := id_eq_of_connectivity

theorem bridging_orders : Orders bridging bridgingCriteria where
  preorder := by
    have hbetween := transCmp_numbers (·.metrics.betweenness) fun _ h => h.betweenness
    exact @transCmp_then _ _ _ hbetween importance_orders.preorder
  follows := bridging_follows
  id_eq _ _ := id_eq_of_bridging

end Preorder

/-- Ids are those of some nodes, put in order by a comparison. -/
def Ranks (cmp : Node Float → Node Float → Ordering) (nodes : List (Node Float)) (ids : List String) : Prop :=
  ∃ sorted : List (Node Float), sorted.Perm nodes ∧ sorted.Pairwise (fun a b => (cmp a b).isLE = true) ∧
    ids = sorted.map (·.id)

section Sorting

variable {cmp : Node Float → Node Float → Ordering} {criteria : List (Node Float → Node Float → Prop)}
  (h : Orders cmp criteria)
include h

theorem Orders.swap {a b : Node Float} (ha : a.HasNumbers) (hb : b.HasNumbers) : cmp b a = (cmp a b).swap :=
  h.preorder.eq_swap (a := ⟨b, hb⟩) (b := ⟨a, ha⟩)

theorem Orders.sortsBy :
    SortsBy (fun a b => cmp a b == .lt) (fun a b => (cmp a b).isLE = true) Node.HasNumbers where
  of_precedes a b _ _ hab := by
    rw [beq_iff_eq.mp hab]
    rfl
  of_not_precedes a b ha hb hab := by
    rw [h.swap ha hb]
    cases hcmp : cmp a b with
    | lt => simp [hcmp] at hab
    | eq => rfl
    | gt => rfl
  trans a b c ha hb hc := h.preorder.isLE_trans (a := ⟨a, ha⟩) (b := ⟨b, hb⟩) (c := ⟨c, hc⟩)

theorem Orders.id_eq_of_isLE {a b : Node Float} (ha : a.HasNumbers) (hb : b.HasNumbers) (hab : (cmp a b).isLE = true)
    (hba : (cmp b a).isLE = true) : a.id = b.id := by
  rw [h.swap ha hb] at hba
  refine h.id_eq a b ?_
  cases hcmp : cmp a b with
  | lt => simp [hcmp] at hba
  | eq => rfl
  | gt => simp [hcmp] at hab

variable {nodes : List (Node Float)} (hnodes : ∀ n ∈ nodes, n.HasNumbers)
include hnodes

theorem Orders.sortBy_ranks : Ranks cmp nodes (ids (sortBy cmp nodes)) :=
  ⟨sortBy cmp nodes, stableSort_perm _ nodes, h.sortsBy.stableSort_pairwise hnodes, rfl⟩

theorem Orders.ids_eq_of_perm {nodes' : List (Node Float)} (hperm : nodes'.Perm nodes) :
    ids (sortBy cmp nodes') = ids (sortBy cmp nodes) := by
  have hnodes' : ∀ n ∈ nodes', n.HasNumbers := fun n hn => hnodes n (hperm.subset hn)
  have hsorted : (sortBy cmp nodes').Perm nodes' := stableSort_perm _ nodes'
  refine map_eq_of_sorted (hsorted.trans (hperm.trans (stableSort_perm _ nodes).symm))
    (h.sortsBy.stableSort_pairwise hnodes') (h.sortsBy.stableSort_pairwise hnodes) ?_
  intro a ha b hb
  exact h.id_eq_of_isLE (hnodes' a (hsorted.subset ha)) (hnodes' b (hsorted.subset hb))

end Sorting

/-- Over nodes with numbers the comparisons are total preorders that follow their criteria; the ranked lists hold the
ids of the nodes in their order, cut off after a number of bridges; and no list depends on the order of the nodes. -/
theorem compute_ranks_in_order (nodes : List (Node Float)) (clusters : List Cluster) (bridgeCount : Nat)
    (hnodes : ∀ n ∈ nodes, n.HasNumbers) :
    Orders importance importanceCriteria ∧ Orders connectivity connectivityCriteria ∧
      Orders bridging bridgingCriteria ∧
      Ranks importance nodes (compute nodes clusters bridgeCount).byImportance ∧
      Ranks connectivity nodes (compute nodes clusters bridgeCount).byConnectivity ∧
      (∃ bridges, Ranks bridging (nodes.filter fun n => (0 : Float) < n.metrics.betweenness) bridges ∧
        (compute nodes clusters bridgeCount).bridgeNodes = bridges.take bridgeCount) ∧
      ∀ nodes', nodes'.Perm nodes →
        (compute nodes' clusters bridgeCount).byImportance = (compute nodes clusters bridgeCount).byImportance ∧
        (compute nodes' clusters bridgeCount).byConnectivity = (compute nodes clusters bridgeCount).byConnectivity ∧
        (compute nodes' clusters bridgeCount).bridgeNodes = (compute nodes clusters bridgeCount).bridgeNodes := by
  have hbetween : ∀ n ∈ nodes.filter fun n => less zero n.metrics.betweenness, n.HasNumbers :=
    fun n hn => hnodes n (List.mem_filter.mp hn).1
  have hbridges : ∀ nodes : List (Node Float), (compute nodes clusters bridgeCount).bridgeNodes =
      (ids (sortBy bridging (nodes.filter fun n => less zero n.metrics.betweenness))).take bridgeCount :=
    fun _ => List.map_take
  refine ⟨importance_orders, connectivity_orders, bridging_orders, importance_orders.sortBy_ranks hnodes,
    connectivity_orders.sortBy_ranks hnodes, ⟨_, bridging_orders.sortBy_ranks hbetween, hbridges nodes⟩, ?_⟩
  intro nodes' hperm
  refine ⟨importance_orders.ids_eq_of_perm hnodes hperm, connectivity_orders.ids_eq_of_perm hnodes hperm, ?_⟩
  rw [hbridges, hbridges, bridging_orders.ids_eq_of_perm hbetween (hperm.filter _)]

def rootNode (id : String) (inDegree outDegree : Nat) (betweenness pageRank : Float) : Node Float where
  id
  file := .ofPath ⟨"/"⟩ ⟨"/" ++ id⟩ 0
  cluster := "."
  exports := []
  metrics := { inDegree, outDegree, betweenness, pageRank }

/-- Two bridges of the same betweenness, told apart by their ranks, and two nodes told apart by nothing but the id. -/
theorem compute_ranks_in_order_of_four :
    let nodes := [rootNode "d" 0 1 0 0.25, rootNode "a" 1 1 2 0.125, rootNode "b" 1 1 2 0.5, rootNode "c" 0 1 0 0.25]
    (∀ n ∈ nodes, n.HasNumbers) ∧ (compute nodes [] 1).byImportance = ["b", "c", "d", "a"] ∧
      (compute nodes [] 1).byConnectivity = ["b", "a", "c", "d"] ∧ (compute nodes [] 1).bridgeNodes = ["b"] ∧
      Ranks importance nodes (compute nodes [] 1).byImportance ∧
      (compute nodes.reverse [] 1).byImportance = (compute nodes [] 1).byImportance := by
  intro nodes
  have hnodes : ∀ n ∈ nodes, n.HasNumbers := by decide +kernel
  obtain ⟨-, -, -, hranks, -, -, hperm⟩ := compute_ranks_in_order nodes [] 1 hnodes
  exact ⟨hnodes, by decide +kernel, by decide +kernel, by decide +kernel, hranks, (hperm _ (List.reverse_perm nodes)).1⟩

end Rankings

end ModuleGraph
