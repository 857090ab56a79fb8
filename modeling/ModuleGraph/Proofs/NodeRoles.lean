import ModuleGraph.Proofs.BreadthFirst
import ModuleGraph.Proofs.Coherence

namespace ModuleGraph

namespace Rankings

variable {K : Type} [Scalar K] {nodes : List (Node K)} {clusters : List Cluster} {bridgeCount : Nat} {id : String}

theorem mem_orphanNodes : id ∈ (compute nodes clusters bridgeCount).orphanNodes ↔
    ∃ n ∈ nodes, n.id = id ∧ n.metrics.inDegree = 0 ∧ n.metrics.outDegree = 0 := by
  simp only [compute, ids, List.mem_map, List.mem_filter, NodeMetrics.degree, beq_iff_eq, Nat.add_eq_zero_iff]
  constructor
  · rintro ⟨n, ⟨hn, hzero⟩, hid⟩
    exact ⟨n, hn, hid, hzero⟩
  · rintro ⟨n, hn, hid, hzero⟩
    exact ⟨n, ⟨hn, hzero⟩, hid⟩

theorem mem_leafNodes : id ∈ (compute nodes clusters bridgeCount).leafNodes ↔
    ∃ n ∈ nodes, n.id = id ∧ n.metrics.outDegree ≠ 0 ∧ n.metrics.inDegree = 0 := by
  simp only [compute, ids, List.mem_map, List.mem_filter, Bool.and_eq_true, decide_eq_true_eq, beq_iff_eq,
    gt_iff_lt, Nat.pos_iff_ne_zero]
  constructor
  · rintro ⟨n, ⟨hn, hdegrees⟩, hid⟩
    exact ⟨n, hn, hid, hdegrees⟩
  · rintro ⟨n, hn, hid, hdegrees⟩
    exact ⟨n, ⟨hn, hdegrees⟩, hid⟩

theorem exists_of_mem_bridgeNodes (h : id ∈ (compute nodes clusters bridgeCount).bridgeNodes) :
    ∃ n ∈ nodes, n.id = id ∧ Scalar.less Scalar.zero n.metrics.betweenness = true := by
  obtain ⟨n, hn, rfl⟩ := List.mem_map.mp h
  have hsorted := (stableSort_perm _ _).subset (List.mem_of_mem_take hn)
  obtain ⟨hnode, hbetween⟩ := List.mem_filter.mp hsorted
  exact ⟨n, hnode, rfl, hbetween⟩

end Rankings

namespace Graph

section Degrees

variable {K : Type} [Scalar K] {t : FileTree} {files : List (FileRecord K)} {options : BuildOptions K}
  (hids : (files.map (·.relativePath)).Nodup)
include hids

theorem CountsAt.degree_eq_zero_iff {degree : NodeMetrics K → Nat} {pick : Draft K → Nat}
    (h : CountsAt t files options degree pick) {n : Node K} (hn : n ∈ (build t files options).nodes) :
    degree n.metrics = 0 ↔ ∀ d ∈ drafts (parsedFiles t files options.resolve), idOf files (pick d) ≠ n.id := by
  rw [h.degree_of_node hids hn, List.countP_eq_zero]
  simp only [beq_iff_eq, ne_eq]

theorem outDegree_eq_zero_iff {n : Node K} (hn : n ∈ (build t files options).nodes) :
    n.metrics.outDegree = 0 ↔ ∀ b, ¬ (build t files options).Links n.id b := by
  rw [(outDegree_countsAt t files options).degree_eq_zero_iff hids hn]
  simp only [links_iff, not_exists, not_and]
  exact ⟨fun h _ d hd hsource _ => h d hd hsource, fun h d hd hsource => h _ d hd hsource rfl⟩

theorem inDegree_eq_zero_iff {n : Node K} (hn : n ∈ (build t files options).nodes) :
    n.metrics.inDegree = 0 ↔ ∀ a, ¬ (build t files options).Links a n.id := by
  rw [(inDegree_countsAt t files options).degree_eq_zero_iff hids hn]
  simp only [links_iff, not_exists, not_and]
  exact ⟨fun h _ d hd _ htarget => h d hd htarget, fun h d hd => h _ d hd rfl⟩

end Degrees

/-- The roles of the nodes of a graph tell which edges they have. -/
structure RolesFit {K : Type} (g : Graph K) : Prop where
  orphan : ∀ id, id ∈ g.rankings.orphanNodes ↔
    (∃ n ∈ g.nodes, n.id = id) ∧ ∀ a, ¬ g.Links a id ∧ ¬ g.Links id a
  leaf : ∀ id, id ∈ g.rankings.leafNodes ↔ (∃ b, g.Links id b) ∧ ∀ a, ¬ g.Links a id
  nodup : g.rankings.orphanNodes.Nodup ∧ g.rankings.leafNodes.Nodup
  bridge : ∀ id ∈ g.rankings.bridgeNodes, (∃ a, a ≠ id ∧ g.Links a id) ∧ ∃ b, b ≠ id ∧ g.Links id b
  orphan_leaf : g.rankings.orphanNodes.Disjoint g.rankings.leafNodes
  bridge_orphan : g.rankings.bridgeNodes.Disjoint g.rankings.orphanNodes
  bridge_leaf : g.rankings.bridgeNodes.Disjoint g.rankings.leafNodes

section Build

variable {t : FileTree} {files : List (FileRecord ℚ)} {options : BuildOptions ℚ}
  (hids : (files.map (·.relativePath)).Nodup)
include hids

omit hids in
theorem metricsAt_betweenness (parsed : List (Parsed ℚ)) (i : Nat) :
    (metricsAt options parsed i).betweenness =
      (Betweenness.compute (topologyOf parsed)).toArray.getD i Scalar.zero := by
  simp only [metricsAt]

theorem bridge_links {id : String} (h : id ∈ (build t files options).rankings.bridgeNodes) :
    (∃ a, a ≠ id ∧ (build t files options).Links a id) ∧ ∃ b, b ≠ id ∧ (build t files options).Links id b := by
  rw [build_rankings] at h
  obtain ⟨n, hn, rfl, hless⟩ := Rankings.exists_of_mem_bridgeNodes h
  obtain ⟨i, hi, hid, hmetrics⟩ := exists_number t files options hn
  have hne : n.metrics.betweenness ≠ 0 := by
    have hlt : (Scalar.zero : ℚ) < n.metrics.betweenness := of_decide_eq_true hless
    rw [Scalar.rat_zero] at hlt
    exact ne_of_gt hlt
  rw [hmetrics, metricsAt_betweenness] at hne
  obtain ⟨⟨u, hui, hu⟩, w, hwi, hw⟩ :=
    Betweenness.neighbours_of_betweenness (topologyOf_bounded (parsedFiles t files options.resolve)) hne
  have hlt : ∀ {v v'}, v' ∈ (topologyOf (parsedFiles t files options.resolve)).successors v →
      v < files.length ∧ v' < files.length := by
    intro v v' h
    obtain ⟨d, hd, rfl, rfl⟩ := exists_draft_of_successor h
    exact draft_lt hd
  rw [hid]
  refine ⟨⟨idOf files u, ?_, links_of_successor hu⟩, idOf files w, ?_, links_of_successor hw⟩
  · exact fun h => hui (idOf_inj hids (hlt hu).1 hi h)
  · exact fun h => hwi (idOf_inj hids (hlt hw).2 hi h)

theorem mem_orphanNodes_iff {id : String} : id ∈ (build t files options).rankings.orphanNodes ↔
    (∃ n ∈ (build t files options).nodes, n.id = id) ∧
      ∀ a, ¬ (build t files options).Links a id ∧ ¬ (build t files options).Links id a := by
  rw [build_rankings, Rankings.mem_orphanNodes]
  constructor
  · rintro ⟨n, hn, rfl, hin, hout⟩
    rw [inDegree_eq_zero_iff hids hn] at hin
    rw [outDegree_eq_zero_iff hids hn] at hout
    exact ⟨⟨n, hn, rfl⟩, fun a => ⟨hin a, hout a⟩⟩
  · rintro ⟨⟨n, hn, rfl⟩, h⟩
    refine ⟨n, hn, rfl, ?_, ?_⟩
    · exact (inDegree_eq_zero_iff hids hn).mpr fun a => (h a).1
    · exact (outDegree_eq_zero_iff hids hn).mpr fun a => (h a).2

theorem mem_leafNodes_iff {id : String} : id ∈ (build t files options).rankings.leafNodes ↔
    (∃ b, (build t files options).Links id b) ∧ ∀ a, ¬ (build t files options).Links a id := by
  rw [build_rankings, Rankings.mem_leafNodes]
  constructor
  · rintro ⟨n, hn, rfl, hout, hin⟩
    rw [ne_eq, outDegree_eq_zero_iff hids hn, not_forall_not] at hout
    exact ⟨hout, (inDegree_eq_zero_iff hids hn).mp hin⟩
  · rintro ⟨⟨b, hb⟩, h⟩
    obtain ⟨d, hd, hsource, _⟩ := links_iff.mp hb
    obtain ⟨n, hn, hid⟩ := exists_node_of_lt t files options (draft_lt hd).1
    obtain rfl : n.id = id := hid.trans hsource
    refine ⟨n, hn, rfl, ?_, (inDegree_eq_zero_iff hids hn).mpr h⟩
    exact fun hout => (outDegree_eq_zero_iff hids hn).mp hout b hb

end Build

theorem build_nodes_betweenness (t : FileTree) (files : List (FileRecord ℚ)) (options : BuildOptions ℚ) :
    (build t files options).nodes.map (·.metrics.betweenness) =
      Betweenness.compute (topologyOf (parsedFiles t files options.resolve)) := by
  have hmetrics := congrArg (List.map NodeMetrics.betweenness) (build_nodes_metrics t files options)
  rw [List.map_map, List.map_map] at hmetrics
  refine hmetrics.trans ?_
  apply List.ext_getElem?
  intro i
  have hsize : (topologyOf (parsedFiles t files options.resolve)).size = files.length := by
    rw [topologyOf, Topology.size_ofArcs, length_parsedFiles]
  rw [List.getElem?_map, Betweenness.compute_getElem?, hsize]
  by_cases hi : i < files.length
  · have hat := Betweenness.compute_getElem? (topologyOf (parsedFiles t files options.resolve)) i
    rw [hsize, if_pos hi] at hat
    simp only [List.getElem?_range hi, Option.map_some, Function.comp_apply, metricsAt_betweenness, if_pos hi,
      Array.getD_eq_getD_getElem?, List.getElem?_toArray, hat, Option.getD_some]
  · simp [hi]

/-- In the exact graph of files with different ids, roles and edges fit together; and betweenness, which makes a node
a bridge, is that of the graph without the edges from a node to itself. -/
theorem build_rolesFit (t : FileTree) (files : List (FileRecord ℚ)) (options : BuildOptions ℚ)
    (hids : (files.map (·.relativePath)).Nodup) :
    (build t files options).RolesFit ∧
      (build t files options).nodes.map (·.metrics.betweenness) =
        Betweenness.compute (topologyOf (parsedFiles t files options.resolve)).loopless := by
  have hnodup := build_ids_nodup t options hids
  refine ⟨?_, ?_⟩
  · refine
      { orphan := fun id => mem_orphanNodes_iff hids
        leaf := fun id => mem_leafNodes_iff hids
        nodup := ?_
        bridge := fun id h => bridge_links hids h
        orphan_leaf := ?_
        bridge_orphan := ?_
        bridge_leaf := ?_ }
    · rw [build_rankings]
      exact ⟨hnodup.sublist (List.filter_sublist.map _), hnodup.sublist (List.filter_sublist.map _)⟩
    · intro id horphan hleaf
      obtain ⟨b, hb⟩ := ((mem_leafNodes_iff hids).mp hleaf).1
      exact (((mem_orphanNodes_iff hids).mp horphan).2 b).2 hb
    · intro id hbridge horphan
      obtain ⟨⟨a, _, ha⟩, _⟩ := bridge_links hids hbridge
      exact (((mem_orphanNodes_iff hids).mp horphan).2 a).1 ha
    · intro id hbridge hleaf
      obtain ⟨⟨a, _, ha⟩, _⟩ := bridge_links hids hbridge
      exact ((mem_leafNodes_iff hids).mp hleaf).2 a ha
  · rw [Betweenness.compute_loopless, build_nodes_betweenness]

/-- Of two modules that import each other, the one that a third module imports is a bridge; a record without a file
is an orphan. -/
theorem build_rolesFit_of_mutual :
    let files := [mutualRecord "a.ts", mutualRecord "b.ts", mutualRecord "c.ts", mutualRecord "d.ts"]
    let g := build mutualImports files exactOptions
    (files.map (·.relativePath)).Nodup ∧
      (g.rankings.orphanNodes = ["d.ts"] ∧ g.rankings.leafNodes = ["c.ts"] ∧ g.rankings.bridgeNodes = ["a.ts"]) ∧
      g.RolesFit ∧ g.nodes.map (·.metrics.betweenness) =
        Betweenness.compute (topologyOf (parsedFiles mutualImports files exactOptions.resolve)).loopless := by
  intro files g
  have hids : (files.map (·.relativePath)).Nodup := by decide +kernel
  exact ⟨hids, by decide +kernel, build_rolesFit mutualImports files exactOptions hids⟩

end Graph

end ModuleGraph
