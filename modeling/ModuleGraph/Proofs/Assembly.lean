import ModuleGraph.Proofs.Aggregation

namespace ModuleGraph

variable {K : Type} [Scalar K]

def Draft.toEdge (files : List (FileRecord K)) (d : Draft K) : Edge K where
  source := Graph.idOf files d.source
  target := Graph.idOf files d.target
  importedNames := d.names
  isTypeOnly := d.isTypeOnly
  weight := d.weight

def Draft.toArc (d : Draft K) : Arc K :=
  ⟨d.source, d.target, d.weight⟩

def FileRecord.member (f : FileRecord K) : Cluster.Member :=
  ⟨f.id, f.directory⟩

namespace Graph

omit [Scalar K] in
theorem idOf_eq {files : List (FileRecord K)} {s : Nat} {f : FileRecord K} (h : files[s]? = some f) :
    idOf files s = f.id := by
  simp [idOf, h]

def topologyOf (parsed : List (Parsed K)) : Topology K :=
  .ofArcs parsed.length ((drafts parsed).map Draft.toArc)

def metricsAt (options : BuildOptions K) (parsed : List (Parsed K)) (i : Nat) : NodeMetrics K where
  inDegree := ((degrees parsed.length ((drafts parsed).map Draft.ends)).getD i {}).incoming
  outDegree := ((degrees parsed.length ((drafts parsed).map Draft.ends)).getD i {}).outgoing
  betweenness := (Betweenness.compute (topologyOf parsed)).toArray.getD i Scalar.zero
  pageRank := (PageRank.compute (topologyOf parsed) options.pageRank).toArray.getD i Scalar.zero

def nodeAt (options : BuildOptions K) (parsed : List (Parsed K)) (i : Nat) (p : Parsed K) : Node K where
  id := p.file.id
  file := p.file
  cluster := Cluster.key p.file.directory
  exports := p.declarations.exports
  metrics := metricsAt options parsed i

theorem assemble_nodes_getElem? (options : BuildOptions K) (parsed : List (Parsed K)) (i : Nat) :
    (assemble options parsed).nodes[i]? = parsed[i]?.map (nodeAt options parsed i) := by
  have hz : List.zip parsed (parsed.map fun p => Cluster.key p.file.directory) =
      parsed.map fun p => (p, Cluster.key p.file.directory) := by
    have h := @List.zip_map' _ _ _ id (fun p : Parsed K => Cluster.key p.file.directory) parsed
    simpa using h
  have hkeys : (Cluster.group ((parsed.map (·.file)).map FileRecord.member) ((drafts parsed).map Draft.ends)
      options.genericSegments).2 = parsed.map fun p => Cluster.key p.file.directory := by
    simp [Cluster.group, FileRecord.member, Function.comp_def]
  change ((List.zip parsed (Cluster.group ((parsed.map (·.file)).map FileRecord.member)
    ((drafts parsed).map Draft.ends) options.genericSegments).2).zipIdx.map _)[i]? = _
  rw [hkeys, hz, List.getElem?_map, List.getElem?_zipIdx, List.getElem?_map]
  cases parsed[i]? with
  | none => rfl
  | some p =>
    simp only [Option.map_some, Nat.zero_add, nodeAt, metricsAt, topologyOf, List.length_map]
    rfl

theorem assemble_node_ids (options : BuildOptions K) (parsed : List (Parsed K)) :
    (assemble options parsed).nodes.map (·.id) = (parsed.map (·.file)).map FileRecord.id := by
  apply List.ext_getElem?
  intro i
  simp [assemble_nodes_getElem?, nodeAt, Function.comp_def]

theorem assemble_edges (options : BuildOptions K) (parsed : List (Parsed K)) :
    (assemble options parsed).edges =
      (drafts parsed).map (Draft.toEdge (parsed.map (·.file))) := rfl

/-- The edges that leave each file, file by file. -/
def outgoing (parsed : List (Parsed K)) : List (List (Edge K)) :=
  parsed.zipIdx.map fun (p, s) => (Draft.aggregate s p.imports).map (Draft.toEdge (parsed.map (·.file)))

theorem assemble_edges_eq_flatten (options : BuildOptions K) (parsed : List (Parsed K)) :
    (assemble options parsed).edges = (outgoing parsed).flatten := by
  rw [assemble_edges, drafts, List.map_flatMap, List.flatMap_def]
  rfl

theorem outgoing_getElem? (parsed : List (Parsed K)) (i : Nat) :
    (outgoing parsed)[i]? = parsed[i]?.map fun p =>
      (Draft.aggregate i p.imports).map (Draft.toEdge (parsed.map (·.file))) := by
  simp [outgoing, Function.comp_def]

theorem outgoing_source {parsed : List (Parsed K)} {i : Nat} {edges : List (Edge K)} {e : Edge K}
    (h : (outgoing parsed)[i]? = some edges) (he : e ∈ edges) :
    e.source = idOf (parsed.map (·.file)) i := by
  rw [outgoing_getElem?] at h
  obtain ⟨p, _, rfl⟩ := Option.map_eq_some_iff.mp h
  obtain ⟨d, hd, rfl⟩ := List.mem_map.mp he
  simp [Draft.toEdge, Draft.aggregate_source hd]

theorem assemble_clusters (options : BuildOptions K) (parsed : List (Parsed K)) :
    (assemble options parsed).clusters =
      (Cluster.group ((parsed.map (·.file)).map FileRecord.member) ((drafts parsed).map Draft.ends)
        options.genericSegments).1 := rfl

theorem assemble_cycles (options : BuildOptions K) (parsed : List (Parsed K)) :
    (assemble options parsed).cycles =
      (Component.cycles (topologyOf parsed)).map (·.map (idOf (parsed.map (·.file)))) := by
  simp only [assemble, topologyOf, List.length_map]
  rfl

theorem assemble_rankings (options : BuildOptions K) (parsed : List (Parsed K)) :
    (assemble options parsed).rankings = .compute (assemble options parsed).nodes
      (assemble options parsed).clusters options.bridgeCount := rfl

theorem assemble_statistics (options : BuildOptions K) (parsed : List (Parsed K)) :
    (assemble options parsed).statistics = .compute ((assemble options parsed).nodes.map (·.metrics))
      (drafts parsed).length (assemble options parsed).clusters.length
      (assemble options parsed).cycles.length := rfl

end Graph

end ModuleGraph
