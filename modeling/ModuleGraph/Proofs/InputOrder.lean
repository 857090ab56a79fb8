import ModuleGraph.Proofs.BetweennessRenaming
import ModuleGraph.Proofs.DraftRenaming
import ModuleGraph.Proofs.RankRenaming
import ModuleGraph.Proofs.RankingOrder

namespace ModuleGraph.Graph

section Files

variable {K : Type} {σ : Equiv.Perm Nat} {files files' : List (FileRecord K)}
  (hpaths : (files.map fun f => f.absolutePath.clean).Nodup)
include hpaths

theorem place_eq_of_clean {i j : Nat} {f g : FileRecord K} (hf : files[i]? = some f) (hg : files[j]? = some g)
    (h : f.absolutePath.clean = g.absolutePath.clean) : i = j := by
  have hi : i < (files.map fun f => f.absolutePath.clean).length := by
    simpa using (List.getElem?_eq_some_iff.mp hf).1
  refine (List.getElem?_inj hi hpaths).mp ?_
  simp [hf, hg, h]

theorem leadsTo_iff {p : Path} {i : Nat} :
    LeadsTo files p i ↔ ∃ f, files[i]? = some f ∧ f.absolutePath.clean = p.clean := by
  constructor
  · exact fun h => h.1
  · intro ⟨f, hf, hfp⟩
    refine ⟨⟨f, hf, hfp⟩, ?_⟩
    intro j g hg hgp
    exact Nat.le_of_eq (place_eq_of_clean hpaths hg hf (hgp.trans hfp.symm))

theorem find?_renamed (h : Arranged σ files files') (p : Path) :
    (NodeIndex.ofPaths (files'.map (·.absolutePath))).find? p =
      ((NodeIndex.ofPaths (files.map (·.absolutePath))).find? p).map σ := by
  have hpaths' : (files'.map fun f => f.absolutePath.clean).Nodup := (h.map _).perm.nodup hpaths
  apply Option.ext
  intro j
  obtain ⟨i, rfl⟩ := σ.surjective j
  have hmap : ((NodeIndex.ofPaths (files.map (·.absolutePath))).find? p).map σ = some (σ i) ↔
      (NodeIndex.ofPaths (files.map (·.absolutePath))).find? p = some i := by
    simp
  rw [hmap, find?_index_iff, find?_index_iff, leadsTo_iff hpaths, leadsTo_iff hpaths', h i]

theorem after_eq_own_of_nodup (t : FileTree) {i : Nat} {f : FileRecord K} (hf : files[i]? = some f) :
    Extraction.after t ((files.take i).map (·.absolutePath)) f.absolutePath =
      (Extraction.ofFile t f.absolutePath).declarations := by
  refine Extraction.after_eq_own (.inr ?_)
  intro q hq hcomponents
  obtain ⟨g, hg, rfl⟩ := List.mem_map.mp hq
  obtain ⟨j, hj⟩ := List.mem_iff_getElem?.mp hg
  have hji : j < i := by
    have hlt := (List.getElem?_eq_some_iff.mp hj).1
    rw [List.length_take] at hlt
    omega
  rw [List.getElem?_take_of_lt hji] at hj
  have heq := place_eq_of_clean hpaths hj hf (Path.clean_eq_of_components hcomponents)
  omega

theorem parsedFiles_renamed (t : FileTree) (options : ResolveOptions) (h : Arranged σ files files') :
    Arranged σ ((parsedFiles t files options).map (Parsed.rename σ)) (parsedFiles t files' options) := by
  have hpaths' : (files'.map fun f => f.absolutePath.clean).Nodup := (h.map _).perm.nodup hpaths
  intro i
  rw [List.getElem?_map, parsedFiles_getElem?, parsedFiles_getElem?, h i]
  cases hf : files[i]? with
  | none => rfl
  | some f =>
    have hf' : files'[σ i]? = some f := (h i).trans hf
    simp only [Option.map_some, parsedAfter, after_eq_own_of_nodup hpaths t hf,
      after_eq_own_of_nodup hpaths' t hf', Parsed.rename]
    rw [resolveFile_renamed t _ (find?_renamed hpaths h)]

end Files

section Assembled

variable {σ : Equiv.Perm Nat} {parsed parsed' : List (Parsed ℚ)}
  (h : Arranged σ (parsed.map (Parsed.rename σ)) parsed') (options : BuildOptions ℚ)
include h

omit options in
theorem files_renamed : Arranged σ (parsed.map (·.file)) (parsed'.map (·.file)) := by
  have hfiles := h.map (·.file)
  rwa [List.map_map] at hfiles

omit options in
theorem idOf_renamed (i : Nat) : idOf (parsed'.map (·.file)) (σ i) = idOf (parsed.map (·.file)) i := by
  rw [idOf, idOf, files_renamed h i]

omit options in
theorem ends_renamed :
    (((drafts parsed).map Draft.ends).map (renameEnds σ)).Perm ((drafts parsed').map Draft.ends) := by
  have hends := (drafts_renamed h).map Draft.ends
  rw [List.map_map] at hends ⊢
  exact hends

theorem metricsAt_renamed (i : Nat) : metricsAt options parsed' (σ i) = metricsAt options parsed i := by
  have htopology := topologyOf_renamed h
  have hlength : parsed'.length = parsed.length := by simpa using h.length_eq
  have hdegrees := degrees_renamed (lt_length_iff h) (ends_renamed h)
  rw [metricsAt, metricsAt, hlength, hdegrees.getD i {}, (Betweenness.compute_renamed htopology).getD i,
    (PageRank.compute_renamed htopology options.pageRank).getD i]

theorem nodes_renamed : Arranged σ (assemble options parsed).nodes (assemble options parsed').nodes := by
  intro i
  rw [assemble_nodes_getElem?, assemble_nodes_getElem?, h i, List.getElem?_map]
  cases parsed[i]? with
  | none => rfl
  | some p => simp only [Option.map_some, nodeAt, metricsAt_renamed h, Parsed.rename]

theorem edges_renamed : (assemble options parsed).edges.Perm (assemble options parsed').edges := by
  have hedges := (drafts_renamed h).map (Draft.toEdge (parsed'.map (·.file)))
  rw [assemble_edges, assemble_edges]
  refine List.Perm.trans (List.Perm.of_eq ?_) hedges
  rw [List.map_map]
  refine List.map_congr_left fun d _ => ?_
  simp only [Function.comp_apply, Draft.toEdge, Draft.rename, idOf_renamed h]

theorem clusters_renamed :
    List.Forall₂ Cluster.Alike (assemble options parsed).clusters (assemble options parsed').clusters := by
  rw [assemble_clusters, assemble_clusters]
  exact Cluster.group_renamed ((files_renamed h).map _) (ends_renamed h) options.genericSegments

theorem cycles_renamed :
    ((assemble options parsed).cycles.map List.toFinset).Perm ((assemble options parsed').cycles.map List.toFinset) := by
  have hcycles := Component.cycles_renamed (topologyOf_bounded parsed) (topologyOf_bounded parsed')
    (topologyOf_renamed h)
  have hids := hcycles.map (Finset.image (idOf (parsed'.map (·.file))))
  have himage : ∀ (ids : Nat → String) (c : List Nat), (c.map ids).toFinset = c.toFinset.image ids := by
    intro ids c
    ext id
    simp
  rw [assemble_cycles, assemble_cycles, List.map_map, List.map_map]
  rw [List.map_map, List.map_map] at hids
  have hleft : ∀ c : List Nat, ((c.map σ).toFinset.image (idOf (parsed'.map (·.file)))) =
      (c.map (idOf (parsed.map (·.file)))).toFinset := by
    intro c
    rw [← himage, List.map_map]
    congr 1
    exact List.map_congr_left fun i _ => idOf_renamed h i
  simpa only [Function.comp_def, himage, hleft] using hids

end Assembled

/-- Two graphs that hold the same and list it in the same way, except that nodes, edges, cycles, members of
cycles and clusters, leaves and orphans may come in another order. -/
structure SameUpToOrder (g g' : Graph ℚ) : Prop where
  nodes : g.nodes.Perm g'.nodes
  edges : g.edges.Perm g'.edges
  clusters : List.Forall₂ Cluster.Alike g.clusters g'.clusters
  cycles : (g.cycles.map List.toFinset).Perm (g'.cycles.map List.toFinset)
  rankings : g.rankings.Alike g'.rankings
  statistics : g.statistics = g'.statistics

/-- The exact graph of files with different cleaned paths and different ids does not depend on their order. -/
theorem build_eq_up_to_order (t : FileTree) (options : BuildOptions ℚ) {files files' : List (FileRecord ℚ)}
    (hperm : files.Perm files') (hpaths : (files.map fun f => f.absolutePath.clean).Nodup)
    (hids : (files.map (·.relativePath)).Nodup) :
    (build t files options).SameUpToOrder (build t files' options) := by
  obtain ⟨σ, hσ⟩ := exists_arranged hperm
  have h := parsedFiles_renamed hpaths t options.resolve hσ
  rw [build_eq_assemble, build_eq_assemble]
  have hnodes := (nodes_renamed h options).perm
  have hclusters := clusters_renamed h options
  have hcycles := cycles_renamed h options
  have hnodup : ((assemble options (parsedFiles t files options.resolve)).nodes.map (·.id)).Nodup := by
    rw [assemble_node_ids, parsedFiles_map_file]
    exact hids
  refine
    { nodes := hnodes
      edges := edges_renamed h options
      clusters := hclusters
      cycles := hcycles
      rankings := ?_
      statistics := ?_ }
  · rw [assemble_rankings, assemble_rankings]
    exact Rankings.compute_alike hnodes hnodup hclusters options.bridgeCount
  · have hlength : (drafts (parsedFiles t files options.resolve)).length =
        (drafts (parsedFiles t files' options.resolve)).length := by
      simpa using (drafts_renamed h).length_eq
    have hcount : (assemble options (parsedFiles t files options.resolve)).cycles.length =
        (assemble options (parsedFiles t files' options.resolve)).cycles.length := by
      simpa using hcycles.length_eq
    rw [assemble_statistics, assemble_statistics, hlength, hclusters.length_eq, hcount]
    exact Statistics.compute_eq_of_perm (hnodes.map _) _ _ _

/-- Two modules that import each other, and a third one that imports the first. -/
def mutualImports : FileTree where
  files := [(["a.ts"], Utf8.encode "import './b';"), (["b.ts"], Utf8.encode "import './a';"),
    (["c.ts"], Utf8.encode "import './a';")]

def mutualRecord (name : String) : FileRecord ℚ :=
  .ofPath ⟨"/"⟩ ⟨"/" ++ name⟩ 0

def exactOptions : BuildOptions ℚ where
  resolve := .ofBase ⟨"/"⟩
  pageRank := ⟨17 / 20, 100, 1 / 1000000⟩
  bridgeCount := 10
  genericSegments := []

/-- A cycle is entered at the module that comes first, and nothing else changes. -/
theorem build_eq_up_to_order_of_swapped :
    let files := [mutualRecord "a.ts", mutualRecord "b.ts", mutualRecord "c.ts"]
    let swapped := [mutualRecord "b.ts", mutualRecord "a.ts", mutualRecord "c.ts"]
    files.Perm swapped ∧ (files.map fun f => f.absolutePath.clean).Nodup ∧ (files.map (·.relativePath)).Nodup ∧
    (build mutualImports files exactOptions).cycles = [["a.ts", "b.ts"]] ∧
    (build mutualImports swapped exactOptions).cycles = [["b.ts", "a.ts"]] ∧
    (build mutualImports files exactOptions).SameUpToOrder (build mutualImports swapped exactOptions) := by
  intro files swapped
  have hperm : files.Perm swapped := List.Perm.swap _ _ _
  have hpaths : (files.map fun f => f.absolutePath.clean).Nodup := by decide +kernel
  have hids : (files.map (·.relativePath)).Nodup := by decide +kernel
  exact ⟨hperm, hpaths, hids, by decide +kernel, by decide +kernel,
    build_eq_up_to_order mutualImports exactOptions hperm hpaths hids⟩

end ModuleGraph.Graph
