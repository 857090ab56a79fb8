import ModuleGraph.Proofs.EdgeExactness
import ModuleGraph.Proofs.InputOrder
import Mathlib.Algebra.BigOperators.Group.Finset.Piecewise

namespace ModuleGraph

/-- Arithmetic without rounding: multiplication undoes division by a count, and a multiple of nothing is nothing. -/
structure Scalar.Exact (K : Type) [Scalar K] : Prop where
  div_mul (a : K) (n : Nat) : 0 < n → a / ofNat n * ofNat n = a
  mul_zero (a : K) : a * zero = zero

theorem Scalar.exact_rat : Scalar.Exact ℚ where
  div_mul a n hn := div_mul_cancel₀ a (Nat.cast_ne_zero.mpr (Nat.ne_of_gt hn))
  mul_zero a := by rw [rat_zero, MulZeroClass.mul_zero]

theorem sum_countP_range {α : Type} (key : α → Nat) (n : Nat) {xs : List α} (h : ∀ x ∈ xs, key x < n) :
    ((List.range n).map fun i => xs.countP (key · == i)).sum = xs.length := by
  induction xs with
  | nil => simp
  | cons x xs ih =>
    obtain ⟨hx, hxs⟩ := List.forall_mem_cons.mp h
    have hone : ((List.range n).map fun i => if key x = i then 1 else 0).sum = 1 := by
      have hsum := Finset.sum_ite_eq (Finset.range n) (key x) fun _ => 1
      rwa [if_pos (Finset.mem_range.mpr hx)] at hsum
    simp only [List.countP_cons, List.sum_map_add, ih hxs, beq_iff_eq, hone, List.length_cons]

namespace Topology

variable {K : Type}

theorem edgeCount_eq_sum (t : Topology K) :
    t.edgeCount = ((List.range t.size).map fun v => (t.weightedSuccessors v).length).sum := by
  have hlengths : t.outgoing.toList.map List.length =
      (List.range t.size).map fun v => (t.weightedSuccessors v).length := by
    apply List.ext_getElem?
    intro v
    by_cases hv : v < t.outgoing.size
    · simp [size, weightedSuccessors, hv]
    · simp [size, hv]
  rw [edgeCount, ← hlengths, List.sum, List.foldr_map]

theorem edgeCount_ofArcs (n : Nat) (arcs : List (Arc K)) :
    (ofArcs n arcs).edgeCount = (arcs.filter (inRange n)).length := by
  have hsource : ∀ a ∈ arcs.filter (inRange n), a.source < n := by
    intro a ha
    have hrange := (List.mem_filter.mp ha).2
    simp only [inRange, Bool.and_eq_true, decide_eq_true_eq] at hrange
    exact hrange.1
  rw [edgeCount_eq_sum, size_ofArcs, ← sum_countP_range Arc.source n hsource]
  congr 1
  refine List.map_congr_left fun v _ => ?_
  rw [weightedSuccessors_ofArcs, List.length_map, List.countP_filter, List.countP_eq_length_filter]
  simp only [Bool.and_comm]

theorem IsCycle.lt_size {t : Topology K} {c : List Nat} (hc : t.IsCycle c) {v : Nat} (hv : v ∈ c) : v < t.size := by
  obtain ⟨_, r, hr, hmem⟩ := hc
  by_cases hvr : v = r
  · exact hvr ▸ hr.lt_size
  · exact Cyclic.lt_size (.inr ⟨r, Ne.symm hvr, ((hmem v).mp hv).symm⟩)

end Topology

namespace Graph

section Numbers

variable {K : Type} {t : FileTree} {files : List (FileRecord K)} {options : ResolveOptions}

theorem length_parsedFiles : (parsedFiles t files options).length = files.length := by
  rw [← List.length_map (·.file), parsedFiles_map_file]

theorem idOf_mem {i : Nat} (hi : i < files.length) : idOf files i ∈ files.map FileRecord.id := by
  rw [idOf_eq (List.getElem?_eq_getElem hi)]
  exact List.mem_map_of_mem (List.getElem_mem hi)

theorem idOf_inj (hids : (files.map (·.relativePath)).Nodup) {i j : Nat} (hi : i < files.length)
    (hj : j < files.length) (h : idOf files i = idOf files j) : i = j := by
  rw [idOf_eq (List.getElem?_eq_getElem hi), idOf_eq (List.getElem?_eq_getElem hj)] at h
  refine (List.getElem?_inj (by simpa using hi) hids).mp ?_
  simpa [List.getElem?_eq_getElem hi, List.getElem?_eq_getElem hj, FileRecord.id] using h

variable [Scalar K]

theorem draft_lt {d : Draft K} (hd : d ∈ drafts (parsedFiles t files options)) :
    d.source < files.length ∧ d.target < files.length := by
  have hends : (d.source, d.target) ∈ (drafts (parsedFiles t files options)).map Draft.ends :=
    List.mem_map.mpr ⟨d, hd, rfl⟩
  exact parsedFiles_ends_lt hends

theorem edgeCount_topologyOf :
    (topologyOf (parsedFiles t files options)).edgeCount = (drafts (parsedFiles t files options)).length := by
  have hall : ∀ a ∈ (drafts (parsedFiles t files options)).map Draft.toArc,
      Topology.inRange (K := K) (parsedFiles t files options).length a = true := by
    intro a ha
    obtain ⟨d, hd, rfl⟩ := List.mem_map.mp ha
    simpa [Topology.inRange, Draft.toArc, length_parsedFiles] using draft_lt hd
  rw [topologyOf, Topology.edgeCount_ofArcs, List.filter_eq_self.mpr hall, List.length_map]

theorem exists_draft_of_successor {v w : Nat} (h : w ∈ (topologyOf (parsedFiles t files options)).successors v) :
    ∃ d ∈ drafts (parsedFiles t files options), d.source = v ∧ d.target = w := by
  have hv : v < (parsedFiles t files options).length := by
    simpa [topologyOf] using Topology.lt_size_of_mem_successors h
  obtain ⟨a, ha, hs, ht, _⟩ := (Topology.mem_successors_ofArcs hv).mp h
  obtain ⟨d, hd, rfl⟩ := List.mem_map.mp ha
  exact ⟨d, hd, hs, ht⟩

theorem metricsAt_degrees (options : BuildOptions K) (parsed : List (Parsed K)) {i : Nat}
    (hi : i < parsed.length) :
    (metricsAt options parsed i).inDegree = (drafts parsed).countP (·.target == i) ∧
      (metricsAt options parsed i).outDegree = (drafts parsed).countP (·.source == i) := by
  have hdegree := degrees_getElem? parsed.length ((drafts parsed).map Draft.ends) i
  rw [if_pos hi, List.countP_map, List.countP_map] at hdegree
  simp only [metricsAt, Array.getD_eq_getD_getElem?, hdegree, Option.getD_some]
  exact ⟨rfl, rfl⟩

end Numbers

variable {K : Type}

def Links (g : Graph K) (a b : String) : Prop :=
  ∃ e ∈ g.edges, e.source = a ∧ e.target = b

def Reaches (g : Graph K) : String → String → Prop :=
  Relation.ReflTransGen g.Links

/-- The parts of a graph of some files fit together. -/
structure Coherent [Scalar K] (files : List (FileRecord K)) (g : Graph K) : Prop where
  nodes : g.nodes.map (·.file) = files ∧ g.nodes.map (·.id) = files.map FileRecord.id
  ends : ∀ e ∈ g.edges, (∃ n ∈ g.nodes, n.id = e.source) ∧ ∃ n ∈ g.nodes, n.id = e.target
  edges_nodup : (g.edges.map fun e => (e.source, e.target)).Nodup
  weight : ∀ e ∈ g.edges, e.weight = if e.isTypeOnly then Scalar.one / Scalar.ofNat 2 else Scalar.one
  outDegree : ∀ n ∈ g.nodes, n.metrics.outDegree = (g.dependencies n.id).length
  inDegree : ∀ n ∈ g.nodes, n.metrics.inDegree = (g.dependents n.id).length
  nodeCount : g.statistics.nodeCount = g.nodes.length
  edgeCount : g.statistics.edgeCount = g.edges.length
  outDegree_sum : (g.nodes.map (·.metrics.outDegree)).sum = g.statistics.edgeCount
  inDegree_sum : (g.nodes.map (·.metrics.inDegree)).sum = g.statistics.edgeCount
  average : Scalar.Exact K → g.statistics.avgDegree * Scalar.ofNat g.statistics.nodeCount =
    Scalar.ofNat (2 * g.statistics.edgeCount)
  cycles : ∀ c ∈ g.cycles, ∀ a ∈ c, (∃ n ∈ g.nodes, n.id = a) ∧ ∀ b ∈ c, g.Reaches a b

section Build

variable [Scalar K] (t : FileTree) (files : List (FileRecord K)) (options : BuildOptions K)

theorem build_nodes_getElem? (i : Nat) :
    (build t files options).nodes[i]? =
      (parsedFiles t files options.resolve)[i]?.map (nodeAt options (parsedFiles t files options.resolve) i) := by
  rw [build_eq_assemble, assemble_nodes_getElem?]

theorem build_nodes_file : (build t files options).nodes.map (·.file) = files := by
  conv => rhs; rw [← parsedFiles_map_file t files options.resolve]
  apply List.ext_getElem?
  intro i
  simp [build_nodes_getElem?, nodeAt, Function.comp_def]

theorem build_nodes_id : (build t files options).nodes.map (·.id) = files.map FileRecord.id := by
  rw [build_eq_assemble, assemble_node_ids, parsedFiles_map_file]

variable {files} in
theorem build_ids_nodup (hids : (files.map (·.relativePath)).Nodup) :
    ((build t files options).nodes.map (·.id)).Nodup := by
  rw [build_nodes_id]
  exact hids

theorem build_edges_eq : (build t files options).edges =
    (drafts (parsedFiles t files options.resolve)).map (Draft.toEdge files) := by
  rw [build_eq_assemble, assemble_edges, parsedFiles_map_file]

theorem build_nodes_metrics : (build t files options).nodes.map (·.metrics) =
    (List.range files.length).map (metricsAt options (parsedFiles t files options.resolve)) := by
  apply List.ext_getElem?
  intro i
  rw [List.getElem?_map, build_nodes_getElem?, List.getElem?_map, parsedFiles_getElem?]
  by_cases hi : i < files.length
  · simp [hi, nodeAt]
  · simp [hi]

theorem build_rankings : (build t files options).rankings =
    .compute (build t files options).nodes (build t files options).clusters options.bridgeCount := by
  rw [build_eq_assemble, assemble_rankings]

theorem exists_node_of_lt {i : Nat} (hi : i < files.length) :
    ∃ n ∈ (build t files options).nodes, n.id = idOf files i := by
  have hmem := idOf_mem hi
  rw [← build_nodes_id t files options] at hmem
  exact List.mem_map.mp hmem

theorem exists_number {n : Node K} (hn : n ∈ (build t files options).nodes) :
    ∃ i < files.length, n.id = idOf files i ∧
      n.metrics = metricsAt options (parsedFiles t files options.resolve) i := by
  obtain ⟨i, hi⟩ := List.mem_iff_getElem?.mp hn
  rw [build_nodes_getElem?, parsedFiles_getElem?, Option.map_map] at hi
  obtain ⟨f, hf, rfl⟩ := Option.map_eq_some_iff.mp hi
  exact ⟨i, (List.getElem?_eq_some_iff.mp hf).1, (idOf_eq hf).symm, rfl⟩

/-- A degree counts the edges that have the number of the node at one of their ends. -/
structure CountsAt (degree : NodeMetrics K → Nat) (pick : Draft K → Nat) : Prop where
  lt : ∀ d ∈ drafts (parsedFiles t files options.resolve), pick d < files.length
  degree_eq : ∀ i < files.length, degree (metricsAt options (parsedFiles t files options.resolve) i) =
    (drafts (parsedFiles t files options.resolve)).countP (pick · == i)

theorem outDegree_countsAt : CountsAt t files options NodeMetrics.outDegree Draft.source where
  lt _ hd := (draft_lt hd).1
  degree_eq _ hi := (metricsAt_degrees options _ (by rwa [length_parsedFiles])).2

theorem inDegree_countsAt : CountsAt t files options NodeMetrics.inDegree Draft.target where
  lt _ hd := (draft_lt hd).2
  degree_eq _ hi := (metricsAt_degrees options _ (by rwa [length_parsedFiles])).1

variable {t files options} {degree : NodeMetrics K → Nat} {pick : Draft K → Nat}

theorem CountsAt.sum_eq (h : CountsAt t files options degree pick) :
    ((build t files options).nodes.map fun n => degree n.metrics).sum =
      (drafts (parsedFiles t files options.resolve)).length := by
  have hmetrics := congrArg (List.map degree) (build_nodes_metrics t files options)
  rw [List.map_map, List.map_map] at hmetrics
  rw [← sum_countP_range pick files.length h.lt]
  refine congrArg List.sum (hmetrics.trans ?_)
  exact List.map_congr_left fun i hi => h.degree_eq i (List.mem_range.mp hi)

/-- Said with ids, which different files do not share, a degree counts the edges with the id of the node. -/
theorem CountsAt.degree_of_node (h : CountsAt t files options degree pick)
    (hids : (files.map (·.relativePath)).Nodup) {n : Node K} (hn : n ∈ (build t files options).nodes) :
    degree n.metrics =
      (drafts (parsedFiles t files options.resolve)).countP fun d => idOf files (pick d) == n.id := by
  obtain ⟨i, hi, hid, hm⟩ := exists_number t files options hn
  rw [hm, h.degree_eq i hi]
  refine List.countP_congr fun d hd => ?_
  rw [beq_iff_eq, beq_iff_eq, hid]
  exact ⟨congrArg (idOf files), idOf_inj hids (h.lt d hd) hi⟩

theorem build_edges_nodup (hids : (files.map (·.relativePath)).Nodup) :
    ((build t files options).edges.map fun e => (e.source, e.target)).Nodup := by
  rw [build_edge_ends]
  refine List.Nodup.map_on ?_ (draft_ends_nodup _)
  rintro ⟨s, u⟩ hsu ⟨s', u'⟩ hsu' h
  obtain ⟨hs, hu⟩ := parsedFiles_ends_lt hsu
  obtain ⟨hs', hu'⟩ := parsedFiles_ends_lt hsu'
  obtain ⟨hsource, htarget⟩ := Prod.mk.inj h
  rw [idOf_inj hids hs hs' hsource, idOf_inj hids hu hu' htarget]

theorem build_degree_sum : ((build t files options).nodes.map fun n => n.metrics.degree).sum =
    2 * (drafts (parsedFiles t files options.resolve)).length := by
  have hin := (inDegree_countsAt t files options).sum_eq
  have hout := (outDegree_countsAt t files options).sum_eq
  simp only [NodeMetrics.degree, List.sum_map_add]
  omega

theorem build_average (hK : Scalar.Exact K) :
    (build t files options).statistics.avgDegree * Scalar.ofNat (build t files options).statistics.nodeCount =
      Scalar.ofNat (2 * (build t files options).statistics.edgeCount) := by
  have hsum := @build_degree_sum K _ t files options
  rw [build_eq_assemble, assemble_statistics, ← build_eq_assemble]
  simp only [Statistics.compute, Statistics.averageDegree, List.length_map]
  rw [← hsum, List.map_map]
  split
  case isTrue hempty =>
    have hnodes := List.eq_nil_of_length_eq_zero hempty
    rw [hempty, hnodes]
    exact hK.mul_zero _
  case isFalse hne => exact hK.div_mul _ _ (Nat.pos_of_ne_zero hne)

theorem links_iff {a b : String} : (build t files options).Links a b ↔
    ∃ d ∈ drafts (parsedFiles t files options.resolve), idOf files d.source = a ∧ idOf files d.target = b := by
  unfold Links
  rw [build_edges_eq]
  constructor
  · rintro ⟨e, he, hs, ht⟩
    obtain ⟨d, hd, rfl⟩ := List.mem_map.mp he
    exact ⟨d, hd, hs, ht⟩
  · rintro ⟨d, hd, hs, ht⟩
    exact ⟨d.toEdge files, List.mem_map_of_mem hd, hs, ht⟩

theorem links_of_successor {v w : Nat} (h : w ∈ (topologyOf (parsedFiles t files options.resolve)).successors v) :
    (build t files options).Links (idOf files v) (idOf files w) := by
  obtain ⟨d, hd, rfl, rfl⟩ := exists_draft_of_successor h
  exact links_iff.mpr ⟨d, hd, rfl, rfl⟩

theorem build_reaches {v w : Nat} (h : (topologyOf (parsedFiles t files options.resolve)).Reaches v w) :
    (build t files options).Reaches (idOf files v) (idOf files w) :=
  Relation.ReflTransGen.lift (idOf files) (fun _ _ hvw => links_of_successor hvw) v w h

theorem build_cycles {c : List String} (hc : c ∈ (build t files options).cycles) {a : String} (ha : a ∈ c) :
    (∃ n ∈ (build t files options).nodes, n.id = a) ∧ ∀ b ∈ c, (build t files options).Reaches a b := by
  rw [build_eq_assemble, assemble_cycles, parsedFiles_map_file] at hc
  obtain ⟨members, hm, rfl⟩ := List.mem_map.mp hc
  have hcycle := Component.isCycle_of_mem_cycles (topologyOf_bounded _) hm
  obtain ⟨v, hv, rfl⟩ := List.mem_map.mp ha
  constructor
  · have hlt := hcycle.lt_size hv
    rw [topologyOf, Topology.size_ofArcs, length_parsedFiles] at hlt
    exact exists_node_of_lt t files options hlt
  · intro b hb
    obtain ⟨w, hw, rfl⟩ := List.mem_map.mp hb
    exact build_reaches ((hcycle.mutual hv).mp hw).1

/-- The graph of files with different ids is coherent, and its edges are those of the adjacency that its ranks
and cycles are computed from. -/
theorem build_coherent (t : FileTree) (files : List (FileRecord K)) (options : BuildOptions K)
    (hids : (files.map (·.relativePath)).Nodup) :
    (build t files options).Coherent files ∧
      (topologyOf (parsedFiles t files options.resolve)).edgeCount = (build t files options).statistics.edgeCount := by
  refine ⟨?_, edgeCount_topologyOf⟩
  refine
    { nodes := ⟨build_nodes_file t files options, build_nodes_id t files options⟩
      ends := ?_
      edges_nodup := build_edges_nodup hids
      weight := ?_
      outDegree := ?_
      inDegree := ?_
      nodeCount := List.length_map _
      edgeCount := ?_
      outDegree_sum := (outDegree_countsAt t files options).sum_eq
      inDegree_sum := (inDegree_countsAt t files options).sum_eq
      average := build_average
      cycles := fun c hc a ha => build_cycles hc ha }
  · intro e he
    rw [build_edges_eq] at he
    obtain ⟨d, hd, rfl⟩ := List.mem_map.mp he
    obtain ⟨hs, ht⟩ := draft_lt hd
    exact ⟨exists_node_of_lt t files options hs, exists_node_of_lt t files options ht⟩
  · intro e he
    rw [build_edges_eq] at he
    obtain ⟨d, hd, rfl⟩ := List.mem_map.mp he
    exact draft_weight hd
  · intro n hn
    rw [(outDegree_countsAt t files options).degree_of_node hids hn, dependencies, build_edges_eq,
      ← List.countP_eq_length_filter, List.countP_map]
    rfl
  · intro n hn
    rw [(inDegree_countsAt t files options).degree_of_node hids hn, dependents, build_edges_eq,
      ← List.countP_eq_length_filter, List.countP_map]
    rfl
  · rw [build_edges_eq, List.length_map]
    rfl

/-- Two modules that import each other and a third one that imports the first: three edges, two of them on a
cycle. -/
theorem build_coherent_of_mutual :
    let files := [mutualRecord "a.ts", mutualRecord "b.ts", mutualRecord "c.ts"]
    let g := build mutualImports files exactOptions
    (files.map (·.relativePath)).Nodup ∧ g.edges.length = 3 ∧ g.cycles = [["a.ts", "b.ts"]] ∧ Scalar.Exact ℚ ∧
      g.Coherent files ∧
      (topologyOf (parsedFiles mutualImports files exactOptions.resolve)).edgeCount = g.statistics.edgeCount := by
  intro files g
  have hids : (files.map (·.relativePath)).Nodup := by decide +kernel
  exact ⟨hids, by decide +kernel, by decide +kernel, Scalar.exact_rat,
    build_coherent mutualImports files exactOptions hids⟩

end Build

end Graph

end ModuleGraph
