import ModuleGraph.Proofs.Coherence
import ModuleGraph.Proofs.ForwardSearch

namespace ModuleGraph

theorem modify_replicate_nil {α : Type} (n i : Nat) (x : α) :
    (Array.replicate n []).modify i (· ++ [x]) = (Array.replicate n []).modify i (x :: ·) := by
  apply Array.ext_getElem?
  intro k
  simp only [Array.getElem?_modify, Array.getElem?_replicate]
  by_cases hk : k < n
  · simp [hk]
  · simp [hk]

variable {K : Type}

def Arc.reverse (a : Arc K) : Arc K :=
  ⟨a.target, a.source, a.weight⟩

namespace Topology

theorem inRange_reverse (n : Nat) (a : Arc K) : inRange n a.reverse = inRange n a :=
  Bool.and_comm _ _

theorem filter_inRange_reverse (n : Nat) (arcs : List (Arc K)) :
    (arcs.map Arc.reverse).filter (inRange n) = (arcs.filter (inRange n)).map Arc.reverse := by
  rw [List.filter_map]
  congr 2
  exact funext (inRange_reverse n)

theorem incoming_foldr_push (arcs : List (Arc K)) {t t' : Topology K}
    (h : t.incoming = t'.outgoing.map (List.map (·.1))) :
    (arcs.foldr push t).incoming = ((arcs.map Arc.reverse).foldr push t').outgoing.map (List.map (·.1)) := by
  induction arcs with
  | nil => exact h
  | cons a arcs ih =>
    rw [List.map_cons, List.foldr_cons, List.foldr_cons, push, push, ih]
    exact modify_map _ _ _ (by simp [Arc.reverse]) _ _

theorem incoming_ofArcs (n : Nat) (arcs : List (Arc K)) :
    (ofArcs n arcs).incoming = (ofArcs n (arcs.map Arc.reverse)).outgoing.map (List.map (·.1)) := by
  rw [ofArcs, ofArcs, filter_inRange_reverse]
  exact incoming_foldr_push _ (by simp)

theorem size_incoming_ofArcs (n : Nat) (arcs : List (Arc K)) : (ofArcs n arcs).incoming.size = n := by
  rw [incoming_ofArcs, Array.size_map]
  exact size_ofArcs n _

theorem predecessors_ofArcs (n : Nat) (arcs : List (Arc K)) (v : Nat) :
    (ofArcs n arcs).predecessors v = (ofArcs n (arcs.map Arc.reverse)).successors v := by
  rw [predecessors, incoming_ofArcs, successors, weightedSuccessors, Array.getD_eq_getD_getElem?,
    Array.getD_eq_getD_getElem?, Array.getElem?_map]
  cases (ofArcs n (arcs.map Arc.reverse)).outgoing[v]? <;> rfl

theorem count_successors_ofArcs {n v w : Nat} (hv : v < n) (hw : w < n) (arcs : List (Arc K)) :
    ((ofArcs n arcs).successors v).count w = (arcs.map fun a => (a.source, a.target)).count (v, w) := by
  rw [Arc.count_successors, List.count, List.countP_map]
  apply List.countP_congr
  intro a _
  simp only [inRange, Bool.and_eq_true, decide_eq_true_eq, beq_iff_eq, Function.comp_apply, Prod.mk.injEq]
  constructor
  · exact fun h => ⟨h.1.2, h.2⟩
  · rintro ⟨rfl, rfl⟩
    exact ⟨⟨⟨hv, hw⟩, rfl⟩, rfl⟩

theorem count_predecessors_ofArcs {n v w : Nat} (hv : v < n) (hw : w < n) (arcs : List (Arc K)) :
    ((ofArcs n arcs).predecessors w).count v = (arcs.map fun a => (a.source, a.target)).count (v, w) := by
  rw [predecessors_ofArcs, count_successors_ofArcs hw hv, List.map_map, List.count, List.count, List.countP_map,
    List.countP_map]
  apply List.countP_congr
  intro a _
  simp [Arc.reverse, and_comm]

theorem sum_length_incoming_ofArcs (n : Nat) (arcs : List (Arc K)) :
    ((ofArcs n arcs).incoming.toList.map List.length).sum = (arcs.filter (inRange n)).length := by
  have hback := edgeCount_ofArcs n (arcs.map Arc.reverse)
  rw [filter_inRange_reverse, List.length_map] at hback
  rw [incoming_ofArcs, ← hback, edgeCount, List.sum, Array.toList_map, List.map_map, List.foldr_map]
  simp only [Function.comp_apply, List.length_map]

/-- An adjacency over the node numbers below `n` that holds the arcs of a list whose ends are both below `n`, each as often
as it is listed. -/
structure Represents (n : Nat) (arcs : List (Arc K)) (t : Topology K) : Prop where
  nodes : t.outgoing.size = n ∧ t.incoming.size = n
  occurrences : ∀ v < n, ∀ w < n,
    (t.successors v).count w = (arcs.map fun a => (a.source, a.target)).count (v, w) ∧
      (t.predecessors w).count v = (arcs.map fun a => (a.source, a.target)).count (v, w)
  leaving : ∀ v, t.successors v = (arcs.filter fun a => inRange n a && a.source == v).map (·.target) ∧
    t.weightedSuccessors v =
      (arcs.filter fun a => inRange n a && a.source == v).map fun a => (a.target, a.weight)
  arriving : ∀ v, t.predecessors v = (arcs.filter fun a => inRange n a && a.target == v).map (·.source)
  below : ∀ v, (∀ w ∈ t.successors v, w < n) ∧ ∀ w ∈ t.predecessors v, w < n
  edges : t.edgeCount = arcs.countP (inRange n) ∧ t.edgeCount = (t.incoming.toList.map List.length).sum

theorem represents_ofArcs (n : Nat) (arcs : List (Arc K)) : Represents n arcs (ofArcs n arcs) where
  nodes := ⟨size_ofArcs n arcs, size_incoming_ofArcs n arcs⟩
  occurrences v hv w hw := ⟨count_successors_ofArcs hv hw arcs, count_predecessors_ofArcs hv hw arcs⟩
  leaving v := ⟨successors_ofArcs n arcs v, weightedSuccessors_ofArcs n arcs v⟩
  arriving v := by
    rw [predecessors_ofArcs, successors_ofArcs, List.filter_map, List.map_map]
    simp only [Function.comp_def, inRange_reverse]
    rfl
  below v := by
    have hbelow : ∀ (arcs : List (Arc K)), ∀ w ∈ (ofArcs n arcs).successors v, w < n := by
      intro arcs w hw
      simpa using bounded_ofArcs n arcs v w hw
    rw [predecessors_ofArcs]
    exact ⟨hbelow arcs, hbelow _⟩
  edges := by
    rw [sum_length_incoming_ofArcs, edgeCount_ofArcs, List.countP_eq_length_filter]
    exact ⟨rfl, rfl⟩

def append (a : Arc K) (t : Topology K) : Topology K where
  outgoing := t.outgoing.modify a.source (· ++ [(a.target, a.weight)])
  incoming := t.incoming.modify a.target (· ++ [a.source])

theorem push_append (a b : Arc K) (t : Topology K) : push a (append b t) = append b (push a t) := by
  unfold push append
  congr 1
  · exact modify_modify_comm (by simp) _ _ _
  · exact modify_modify_comm (by simp) _ _ _

theorem foldr_push_append (arcs : List (Arc K)) (b : Arc K) (t : Topology K) :
    arcs.foldr push (append b t) = append b (arcs.foldr push t) := by
  induction arcs with
  | nil => rfl
  | cons a arcs ih => rw [List.foldr_cons, ih, push_append, List.foldr_cons]

theorem ofArcs_concat (n : Nat) (arcs : List (Arc K)) (a : Arc K) :
    ofArcs n (arcs ++ [a]) = if inRange n a then append a (ofArcs n arcs) else ofArcs n arcs := by
  rw [ofArcs, ofArcs, List.filter_append, List.foldr_append]
  by_cases ha : inRange n a = true
  · -- The last arc is the first to be pushed, and to an empty list it is all one whether it comes first or last.
    rw [if_pos ha, List.filter_cons_of_pos ha, ← foldr_push_append]
    simp only [List.filter_nil, List.foldr_cons, List.foldr_nil, push, append, modify_replicate_nil]
  · rw [if_neg ha, List.filter_cons_of_neg ha]
    rfl

/-- An adjacency in three columns, each with a list for every node: the targets of the edges that leave it, the weights of
these edges, and the sources of the edges that arrive at it. -/
structure Columns (K : Type) where
  targets : Array (List Nat)
  weights : Array (List K)
  sources : Array (List Nat)

namespace Columns

def empty (n : Nat) : Columns K :=
  ⟨Array.replicate n [], Array.replicate n [], Array.replicate n []⟩

/-- A turn of the loop: an arc in range is appended to all three columns, if all of them have a list for it. -/
def add (n : Nat) (c : Columns K) (a : Arc K) : Columns K :=
  if inRange n a ∧ a.source < c.targets.size ∧ a.source < c.weights.size ∧ a.target < c.sources.size then
    { targets := c.targets.modify a.source (· ++ [a.target])
      weights := c.weights.modify a.source (· ++ [a.weight])
      sources := c.sources.modify a.target (· ++ [a.source]) }
  else c

def ofArcs (n : Nat) (arcs : List (Arc K)) : Columns K :=
  arcs.foldl (add n) (empty n)

/-- Each target with the weight at the same place; what has no partner is left out. -/
def paired (c : Columns K) : Topology K where
  outgoing := Array.zipWith List.zip c.targets c.weights
  incoming := c.sources

end Columns

def columns (t : Topology K) : Columns K where
  targets := t.outgoing.map (List.map (·.1))
  weights := t.outgoing.map (List.map (·.2))
  sources := t.incoming

theorem paired_columns (t : Topology K) : t.columns.paired = t := by
  have hzip : ∀ edges : List (Nat × K), List.zip (edges.map (·.1)) (edges.map (·.2)) = edges := by
    intro edges
    rw [List.zip_map']
    exact List.map_id edges
  simp only [columns, Columns.paired, Array.zipWith_map, Array.zipWith_self, hzip, Array.map_id']

theorem columns_add {n : Nat} {t : Topology K} (hout : t.outgoing.size = n) (hin : t.incoming.size = n) (a : Arc K) :
    t.columns.add n a = if inRange n a then (append a t).columns else t.columns := by
  by_cases ha : inRange n a = true
  · have hends : a.source < n ∧ a.target < n := by simpa [inRange] using ha
    have hroom : inRange n a ∧ a.source < t.columns.targets.size ∧ a.source < t.columns.weights.size ∧
        a.target < t.columns.sources.size := by
      simpa [columns, hout, hin, ha] using hends
    rw [Columns.add, if_pos hroom, if_pos ha]
    simp only [columns, append]
    rw [modify_map _ (· ++ [(a.target, a.weight)]) _ (fun _ => by simp),
      modify_map _ (· ++ [(a.target, a.weight)]) _ (fun _ => by simp)]
  · rw [Columns.add, if_neg (fun h => ha h.1), if_neg ha]

theorem columns_ofArcs (n : Nat) (arcs : List (Arc K)) : Columns.ofArcs n arcs = (ofArcs n arcs).columns := by
  -- From the end of the list: the last turn of the loop is for its last arc.
  induction arcs using List.reverseRecOn with
  | nil => simp [Columns.ofArcs, Columns.empty, ofArcs, columns]
  | append_singleton arcs a ih =>
    have hturn : Columns.ofArcs n (arcs ++ [a]) = (Columns.ofArcs n arcs).add n a := by
      rw [Columns.ofArcs, List.foldl_concat]
      rfl
    rw [hturn, ih, columns_add (size_ofArcs n arcs) (size_incoming_ofArcs n arcs), ofArcs_concat, apply_ite columns]

/-- Whatever the arcs, the adjacency represents them, and the loop over them ends with its three columns in step: they are
the columns of that adjacency, and pairing them gives it back. -/
theorem columns_represent_arcs (n : Nat) (arcs : List (Arc K)) :
    Represents n arcs (ofArcs n arcs) ∧ Columns.ofArcs n arcs = (ofArcs n arcs).columns ∧
      (Columns.ofArcs n arcs).paired = ofArcs n arcs := by
  refine ⟨represents_ofArcs n arcs, columns_ofArcs n arcs, ?_⟩
  rw [columns_ofArcs, paired_columns]

end Topology

end ModuleGraph
