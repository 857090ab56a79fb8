import ModuleGraph.Proofs.Coherence

namespace ModuleGraph

/-- The numbers of a list can be compared with each other: none is both less and greater than another one, and being
not less is transitive. -/
structure Scalar.Comparable {K : Type} [Scalar K] (xs : List K) : Prop where
  asymm : ∀ a ∈ xs, ∀ b ∈ xs, less a b = true → less b a = false
  trans : ∀ a ∈ xs, ∀ b ∈ xs, ∀ c ∈ xs, less a b = false → less b c = false → less a c = false

theorem Scalar.Comparable.irrefl {K : Type} [Scalar K] {xs : List K} (h : Comparable xs) {a : K} (ha : a ∈ xs) :
    less a a = false := by
  cases hless : less a a with
  | false => rfl
  | true => exact hless.symm.trans (h.asymm a ha a ha hless)

theorem Scalar.comparable_rat (xs : List ℚ) : Comparable xs where
  asymm a _ b _ hab := decide_eq_false (not_lt_of_gt (of_decide_eq_true hab))
  trans a _ b _ c _ hab hbc := by
    have hba : b ≤ a := not_lt.mp (of_decide_eq_false hab)
    have hcb : c ≤ b := not_lt.mp (of_decide_eq_false hbc)
    exact decide_eq_false (not_lt.mpr (hcb.trans hba))

theorem forall₂_filterMap {α β : Type} {f : α → Option β} {R : α → β → Prop} {xs : List α}
    (h : ∀ x ∈ xs, ∃ y, f x = some y ∧ R x y) : List.Forall₂ R xs (xs.filterMap f) := by
  induction xs with
  | nil => exact .nil
  | cons x xs ih =>
    obtain ⟨⟨y, hy, hxy⟩, hrest⟩ := List.forall_mem_cons.mp h
    rw [List.filterMap_cons_some hy]
    exact .cons hxy (ih hrest)

theorem find?_before {α : Type} {R : α → α → Prop} {xs : List α} (hxs : xs.Pairwise R) {p : α → Bool} {x y : α}
    (hx : xs.find? p = some x) (hy : y ∈ xs) (hpy : p y = true) : y = x ∨ R x y ∧ [x, y].Sublist xs := by
  obtain ⟨_, before, after, rfl, hbefore⟩ := List.find?_eq_some_iff_append.mp hx
  rw [List.mem_append, List.mem_cons] at hy
  rcases hy with hy | hy | hy
  · have hnot := hbefore y hy
    rw [hpy] at hnot
    cases hnot
  · exact .inl hy
  · refine .inr ⟨(List.pairwise_cons.mp (List.pairwise_append.mp hxs).2.1).1 y hy, ?_⟩
    have hafter : [x, y].Sublist (x :: after) := (List.singleton_sublist.mpr hy).cons_cons x
    exact hafter.trans (List.sublist_append_right before _)

namespace Rankings

variable {K : Type} [Scalar K] {nodes : List (Node K)}

theorem importance_sortsBy_rank (h : Scalar.Comparable (nodes.map (·.metrics.pageRank))) :
    SortsBy (fun a b => importance a b == .lt)
      (fun a b => Scalar.less a.metrics.pageRank b.metrics.pageRank = false) (· ∈ nodes) where
  of_precedes a b ha hb hab := by
    by_contra hless
    rw [Bool.not_eq_false] at hless
    have hback := h.asymm _ (List.mem_map_of_mem ha) _ (List.mem_map_of_mem hb) hless
    simp [importance, descending, Scalar.order, hless, hback] at hab
  of_not_precedes a b ha hb hab := by
    by_contra hless
    rw [Bool.not_eq_false] at hless
    simp [importance, descending, Scalar.order, hless] at hab
  trans a b c ha hb hc := h.trans _ (List.mem_map_of_mem ha) _ (List.mem_map_of_mem hb) _ (List.mem_map_of_mem hc)

/-- The center of a cluster with a member among the nodes: it comes before the other members in the order of
importance, and no member has a higher rank. -/
theorem exists_center (h : Scalar.Comparable (nodes.map (·.metrics.pageRank))) {c : Cluster}
    (hc : ∃ n ∈ nodes, n.id ∈ c.nodes) :
    ∃ n ∈ nodes, center? (ids (sortBy importance nodes)) c = some n.id ∧ n.id ∈ c.nodes ∧
      ∀ m ∈ nodes, m.id ∈ c.nodes → Scalar.less n.metrics.pageRank m.metrics.pageRank = false ∧
        (m.id ≠ n.id → [n.id, m.id].Sublist (ids (sortBy importance nodes))) := by
  have hperm : (sortBy importance nodes).Perm nodes := stableSort_perm _ nodes
  have hsorted : (sortBy importance nodes).Pairwise
      fun a b => Scalar.less a.metrics.pageRank b.metrics.pageRank = false :=
    (importance_sortsBy_rank h).stableSort_pairwise fun _ hn => hn
  obtain ⟨n, hn⟩ : ∃ n, (sortBy importance nodes).find? (·.id ∈ c.nodes) = some n := by
    obtain ⟨n, hn, hnc⟩ := hc
    exact Option.isSome_iff_exists.mp (List.find?_isSome.mpr ⟨n, hperm.mem_iff.mpr hn, by simpa using hnc⟩)
  have hnode : n ∈ nodes := hperm.mem_iff.mp (List.mem_of_find?_eq_some hn)
  refine ⟨n, hnode, ?_, by simpa using List.find?_some hn, ?_⟩
  · unfold center? ids
    rw [List.find?_map]
    exact congrArg (Option.map Node.id) hn
  · intro m hm hmc
    rcases find?_before hsorted hn (hperm.mem_iff.mpr hm) (by simpa using hmc) with rfl | ⟨hrank, hbefore⟩
    · exact ⟨h.irrefl (List.mem_map_of_mem hnode), fun hne => absurd rfl hne⟩
    · exact ⟨hrank, fun _ => hbefore.map Node.id⟩

end Rankings

namespace Graph

variable {K : Type}

theorem node?_eq_some {g : Graph K} (hids : (g.nodes.map (·.id)).Nodup) {n : Node K} (hn : n ∈ g.nodes) :
    g.node? n.id = some n := by
  have hfound : (g.node? n.id).isSome := List.find?_isSome.mpr ⟨n, hn, beq_self_eq_true n.id⟩
  obtain ⟨m, hm⟩ := Option.isSome_iff_exists.mp hfound
  have hid : m.id = n.id := by simpa using List.find?_some hm
  rw [hm, List.inj_on_of_nodup_map hids (List.mem_of_find?_eq_some hm) hn hid]

section Build

variable [Scalar K] {t : FileTree} {files : List (FileRecord K)} {options : BuildOptions K}

theorem build_node_file {n : Node K} (hn : n ∈ (build t files options).nodes) :
    n.file ∈ files ∧ n.id = n.file.id ∧ n.cluster = Cluster.key n.file.directory := by
  obtain ⟨i, hi⟩ := List.mem_iff_getElem?.mp hn
  rw [build_nodes_getElem?, parsedFiles_getElem?, Option.map_map] at hi
  obtain ⟨f, hf, rfl⟩ := Option.map_eq_some_iff.mp hi
  exact ⟨List.mem_of_getElem? hf, rfl, rfl⟩

theorem build_cluster_files {c : Cluster} (hc : c ∈ (build t files options).clusters) :
    (∃ f ∈ files, Cluster.key f.directory = c.name) ∧
      ∀ id, id ∈ c.nodes ↔ ∃ f ∈ files, Cluster.key f.directory = c.name ∧ f.id = id := by
  rw [build_eq_assemble, assemble_clusters, parsedFiles_map_file] at hc
  obtain ⟨name, hname, rfl⟩ := List.mem_map.mp hc
  have hkey := List.mem_eraseDups.mp ((stableSort_perm _ _).subset hname)
  rw [List.map_map] at hkey
  refine ⟨List.mem_map.mp hkey, fun id => ?_⟩
  simp only [Cluster.ofName, List.filter_map, List.map_map, List.mem_map, List.mem_filter, Function.comp_apply,
    FileRecord.member, beq_iff_eq, and_assoc]

theorem mem_cluster_iff (hids : (files.map (·.relativePath)).Nodup) {n : Node K}
    (hn : n ∈ (build t files options).nodes) {c : Cluster} (hc : c ∈ (build t files options).clusters) :
    n.id ∈ c.nodes ↔ n.cluster = c.name := by
  obtain ⟨hfile, hid, hcluster⟩ := build_node_file hn
  rw [(build_cluster_files hc).2, hid, hcluster]
  constructor
  · rintro ⟨f, hf, hkey, hfid⟩
    have hsame : f = n.file := List.inj_on_of_nodup_map hids hf hfile hfid
    rw [← hsame, hkey]
  · intro hkey
    exact ⟨n.file, hfile, hkey, rfl⟩

theorem exists_node_of_member {c : Cluster} (hc : c ∈ (build t files options).clusters) {id : String}
    (hid : id ∈ c.nodes) : ∃ n ∈ (build t files options).nodes, n.id = id := by
  obtain ⟨f, hf, _, rfl⟩ := ((build_cluster_files hc).2 id).mp hid
  have hmem : f.id ∈ (build t files options).nodes.map (·.id) := by
    rw [build_nodes_id]
    exact List.mem_map_of_mem hf
  exact List.mem_map.mp hmem

theorem exists_member {c : Cluster} (hc : c ∈ (build t files options).clusters) :
    ∃ n ∈ (build t files options).nodes, n.id ∈ c.nodes := by
  obtain ⟨f, hf, hkey⟩ := (build_cluster_files hc).1
  have hmember : f.id ∈ c.nodes := ((build_cluster_files hc).2 f.id).mpr ⟨f, hf, hkey, rfl⟩
  obtain ⟨n, hn, hid⟩ := exists_node_of_member hc hmember
  exact ⟨n, hn, hid ▸ hmember⟩

end Build

/-- An id is the center of a cluster: a member whose node carries the name of the cluster, that comes before every
other member in the order of importance, so that the node of no member has a higher rank. -/
structure IsCenter [Scalar K] (g : Graph K) (c : Cluster) (id : String) : Prop where
  member : id ∈ c.nodes
  before : ∀ other ∈ c.nodes, other ≠ id → [id, other].Sublist g.rankings.byImportance
  node : ∃ n, g.node? id = some n ∧ n.cluster = c.name ∧ ∀ other ∈ c.nodes,
    ∃ m, g.node? other = some m ∧ Scalar.less n.metrics.pageRank m.metrics.pageRank = false

/-- The graph of files with different ids and comparable ranks has one center for each cluster, in the order of the
clusters; and no id comes twice in the order of importance. -/
theorem build_clusterCenters [Scalar K] (t : FileTree) (files : List (FileRecord K)) (options : BuildOptions K)
    (hids : (files.map (·.relativePath)).Nodup)
    (hranks : Scalar.Comparable ((build t files options).nodes.map (·.metrics.pageRank))) :
    List.Forall₂ (build t files options).IsCenter (build t files options).clusters
        (build t files options).rankings.clusterCenters ∧
      (build t files options).rankings.byImportance.Nodup := by
  have hnodup := build_ids_nodup t options hids
  have himportance : (build t files options).rankings.byImportance =
      Rankings.ids (Rankings.sortBy Rankings.importance (build t files options).nodes) := by
    rw [build_rankings]
    rfl
  refine ⟨?_, ?_⟩
  · have hcenters : (build t files options).rankings.clusterCenters =
        (build t files options).clusters.filterMap
          (Rankings.center? (build t files options).rankings.byImportance) := by
      rw [build_rankings]
      rfl
    rw [hcenters]
    refine forall₂_filterMap fun c hc => ?_
    obtain ⟨n, hn, hcenter, hmember, hbest⟩ := Rankings.exists_center hranks (exists_member hc)
    rw [← himportance] at hcenter hbest
    refine ⟨n.id, hcenter, hmember, ?_, n, node?_eq_some hnodup hn, (mem_cluster_iff hids hn hc).mp hmember, ?_⟩
    · intro other hother hne
      obtain ⟨m, hm, rfl⟩ := exists_node_of_member hc hother
      exact (hbest m hm hother).2 hne
    · intro other hother
      obtain ⟨m, hm, rfl⟩ := exists_node_of_member hc hother
      exact ⟨m, node?_eq_some hnodup hm, (hbest m hm hother).1⟩
  · rw [himportance]
    have hperm := (stableSort_perm (fun a b => Rankings.importance a b == .lt) (build t files options).nodes).map Node.id
    exact hperm.symm.nodup hnodup

/-- Two clusters; in the second one nothing but the ids tells the members apart. -/
theorem build_clusterCenters_of_two :
    let files := [mutualRecord "lib/y.ts", mutualRecord "c.ts", mutualRecord "b.ts", mutualRecord "a.ts",
      mutualRecord "lib/x.ts"]
    let g := build mutualImports files { exactOptions with pageRank := ⟨17 / 20, 1, 0⟩ }
    (files.map (·.relativePath)).Nodup ∧ Scalar.Comparable (g.nodes.map (·.metrics.pageRank)) ∧
      g.clusters.map (·.name) = [".", "lib"] ∧ g.rankings.clusterCenters = ["a.ts", "lib/x.ts"] ∧
      List.Forall₂ g.IsCenter g.clusters g.rankings.clusterCenters ∧ g.rankings.byImportance.Nodup := by
  intro files g
  have hids : (files.map (·.relativePath)).Nodup := by decide +kernel
  have hranks := Scalar.comparable_rat (g.nodes.map (·.metrics.pageRank))
  exact ⟨hids, hranks, by decide +kernel, by decide +kernel,
    build_clusterCenters mutualImports files _ hids hranks⟩

end Graph

end ModuleGraph
