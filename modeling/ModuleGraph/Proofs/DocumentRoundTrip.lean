import ModuleGraph.Export.Render
import ModuleGraph.Proofs.Encoding
import ModuleGraph.Proofs.JsonGrammar
import ModuleGraph.Proofs.NumberText

namespace ModuleGraph

namespace Json

theorem wellSpelled_ofText (s : String) : WellSpelled (.ofText s) :=
  .string (isSpelling_escape s.toList)

theorem wellSpelled_array_map {α : Type} {f : α → Json} {xs : List α} (h : ∀ x ∈ xs, WellSpelled (f x)) :
    WellSpelled (.array (xs.map f)) := by
  apply WellSpelled.array
  intro j hj
  obtain ⟨x, hx, rfl⟩ := List.mem_map.mp hj
  exact h x hx

theorem wellSpelled_ofTexts (items : List String) : WellSpelled (.ofTexts items) :=
  wellSpelled_array_map fun s _ => wellSpelled_ofText s

theorem wellSpelled_ofMembers {members : List (String × Json)} (h : ∀ m ∈ members, WellSpelled m.2) :
    WellSpelled (.ofMembers members) := by
  apply WellSpelled.object
  · intro m hm
    obtain ⟨n, -, rfl⟩ := List.mem_map.mp hm
    exact isSpelling_escape n.1.toList
  · intro m hm
    obtain ⟨n, hn, rfl⟩ := List.mem_map.mp hm
    exact h n hn

@[simp] theorem text?_ofText (s : String) : (Json.ofText s).text? = some s := by
  simp [ofText, text?, unescape?_escape]

@[simp] theorem bool?_bool (b : Bool) : (Json.bool b).bool? = some b := rfl

theorem list?_array_map {α : Type} {read : Json → Option α} {write : α → Json} {xs : List α}
    (h : ∀ x ∈ xs, read (write x) = some x) : list? read (.array (xs.map write)) = some xs := by
  simp only [list?]
  induction xs with
  | nil => rfl
  | cons x xs ih =>
    rw [List.map_cons, List.mapM_cons, h x (by simp), ih fun y hy => h y (by simp [hy])]
    rfl

@[simp] theorem list?_ofTexts (items : List String) : list? text? (Json.ofTexts items) = some items :=
  list?_array_map fun s _ => text?_ofText s

theorem members?_ofMembers (members : List (String × Json)) : (Json.ofMembers members).members? = some members := by
  simp only [ofMembers, members?]
  induction members with
  | nil => rfl
  | cons m members ih =>
    rw [List.map_cons, List.mapM_cons, ih]
    simp [unescape?_escape]

theorem uniqueField?_of_nodup {members : List (String × Json)} (h : (members.map (·.1)).Nodup) (name : String) :
    uniqueField? members name = some (members.lookup name) := by
  induction members with
  | nil => rfl
  | cons m members ih =>
    obtain ⟨key, value⟩ := m
    obtain ⟨hnot, hrest⟩ := List.nodup_cons.mp h
    by_cases hkey : key = name
    · subst key
      have hnone : members.filter (·.1 == name) = [] := by
        rw [List.filter_eq_nil_iff]
        intro n hn he
        exact hnot (List.mem_map.mpr ⟨n, hn, by simpa using he⟩)
      simp [uniqueField?, hnone]
    · have hne : (name == key) = false := by simpa using fun he => hkey he.symm
      simpa [uniqueField?, hkey, List.lookup_cons, hne] using ih hrest

theorem fields?_ofMembers {members : List (String × Json)} (names : List String)
    (h : (members.map (·.1)).Nodup) :
    (Json.ofMembers members).fields? names = some (names.map fun name => members.lookup name) := by
  have hfields : (Json.ofMembers members).fields? names =
      ((Json.ofMembers members).members?).bind fun ms => names.mapM (uniqueField? ms) := rfl
  rw [hfields, members?_ofMembers, Option.bind_some]
  induction names with
  | nil => rfl
  | cons name names ih =>
    rw [List.mapM_cons, uniqueField?_of_nodup h, ih rfl]
    rfl

end Json

open Json

namespace ExportKind

theorem alternative?_name (kind : ExportKind) :
    Json.alternative? ExportKind.names (.ofText kind.name) = some kind := by
  have htext := text?_ofText kind.name
  simp only [ofText] at htext
  simp only [alternative?, ofText, htext]
  cases kind <;> rfl

end ExportKind

namespace Export

theorem wellSpelled_toJson (e : Export) : WellSpelled e.toJson := by
  apply wellSpelled_ofMembers
  cases e.reExportSource <;> simp [wellSpelled_ofText, wellSpelled_ofNat, WellSpelled.bool]

theorem ofJson?_toJson {e : Export} (h : e.line < 2 ^ 64) : ofJson? e.toJson = some e := by
  obtain ⟨name, isDefault, isType, isReExport, source, kind, line⟩ := e
  have hline := count?_ofNat h
  have hkind := kind.alternative?_name
  cases source with
  | none =>
    rw [ofJson?, toJson, fields?_ofMembers _ (by simp)]
    have habsent : Json.optional text? none = some none := rfl
    simp [List.lookup_cons, required, habsent, hkind, hline]
  | some s =>
    rw [ofJson?, toJson, fields?_ofMembers _ (by simp)]
    have hpresent : Json.optional text? (some (.ofText s)) = ((Json.ofText s).text?).map some := rfl
    simp [List.lookup_cons, required, hpresent, hkind, hline]

end Export

namespace FileRecord

theorem wellSpelled_toJson (f : FileRecord Float) : WellSpelled f.toJson := by
  apply wellSpelled_ofMembers
  simp [members, wellSpelled_ofText, wellSpelled_ofFloat]

theorem ofJson?_toJson {f : FileRecord Float} (h : Readable f.score) (hpath : f.absolutePath.raw.text?.isSome) :
    ofJson? f.toJson = some f := by
  have hshown : RawText.ofString f.absolutePath.text = f.absolutePath.raw := RawText.ofString_lossy hpath
  rw [ofJson?, toJson, fields?_ofMembers _ (by simp [members])]
  simp [members, List.lookup_cons, required, float?_ofFloat h, hshown]

end FileRecord

namespace NodeMetrics

theorem wellSpelled_toJson (m : NodeMetrics Float) : WellSpelled m.toJson := by
  apply wellSpelled_ofMembers
  simp [wellSpelled_ofNat, wellSpelled_ofFloat]

theorem ofJson?_toJson {m : NodeMetrics Float} (hin : m.inDegree < 2 ^ 64) (hout : m.outDegree < 2 ^ 64)
    (hbetweenness : Readable m.betweenness) (hrank : Readable m.pageRank) : ofJson? m.toJson = some m := by
  rw [ofJson?, toJson, fields?_ofMembers _ (by simp)]
  simp [List.lookup_cons, required, count?_ofNat hin, count?_ofNat hout, float?_ofFloat hbetweenness,
    float?_ofFloat hrank]

end NodeMetrics

namespace Node

def numbers (n : Node Float) : List Float :=
  [n.file.score, n.metrics.betweenness, n.metrics.pageRank]

def counts (n : Node Float) : List Nat :=
  n.exports.map (·.line) ++ [n.metrics.inDegree, n.metrics.outDegree]

theorem wellSpelled_toJson (n : Node Float) : WellSpelled n.toJson := by
  apply wellSpelled_ofMembers
  simp [wellSpelled_ofText, FileRecord.wellSpelled_toJson, NodeMetrics.wellSpelled_toJson,
    wellSpelled_array_map fun e _ => Export.wellSpelled_toJson e]

theorem ofJson?_toJson {n : Node Float} (hnumbers : ∀ x ∈ n.numbers, Readable x)
    (hcounts : ∀ k ∈ n.counts, k < 2 ^ 64) (hpath : n.file.absolutePath.raw.text?.isSome) :
    ofJson? n.toJson = some n := by
  simp only [numbers, counts, List.mem_cons, List.mem_append, List.mem_map, List.not_mem_nil, or_false, forall_eq,
    or_imp, forall_and, forall_exists_index, and_imp, forall_apply_eq_imp_iff₂] at hnumbers hcounts
  obtain ⟨hscore, hbetweenness, hrank⟩ := hnumbers
  obtain ⟨hlines, hin, hout⟩ := hcounts
  have hexports := list?_array_map fun e he => Export.ofJson?_toJson (hlines e he)
  have hfile := FileRecord.ofJson?_toJson hscore hpath
  have hmetrics := NodeMetrics.ofJson?_toJson hin hout hbetweenness hrank
  rw [ofJson?, toJson, fields?_ofMembers _ (by simp)]
  simp [List.lookup_cons, required, hfile, hexports, hmetrics]

end Node

namespace Edge

theorem wellSpelled_toJson (e : Edge Float) : WellSpelled e.toJson := by
  apply wellSpelled_ofMembers
  simp [wellSpelled_ofText, wellSpelled_ofTexts, WellSpelled.bool, wellSpelled_ofFloat]

theorem ofJson?_toJson {e : Edge Float} (h : Readable e.weight) : ofJson? e.toJson = some e := by
  rw [ofJson?, toJson, fields?_ofMembers _ (by simp)]
  simp [List.lookup_cons, required, float?_ofFloat h]

end Edge

namespace Cluster

def counts (c : Cluster) : List Nat :=
  [c.internalEdges, c.externalEdges]

theorem wellSpelled_toJson (c : Cluster) : WellSpelled c.toJson := by
  apply wellSpelled_ofMembers
  simp [wellSpelled_ofText, wellSpelled_ofTexts, wellSpelled_ofNat]

theorem ofJson?_toJson {c : Cluster} (h : ∀ k ∈ c.counts, k < 2 ^ 64) : ofJson? c.toJson = some c := by
  have hinternal := count?_ofNat (h c.internalEdges (by simp [counts]))
  have hexternal := count?_ofNat (h c.externalEdges (by simp [counts]))
  rw [ofJson?, toJson, fields?_ofMembers _ (by simp)]
  simp [List.lookup_cons, required, hinternal, hexternal]

end Cluster

namespace Rankings

theorem wellSpelled_toJson (r : Rankings) : WellSpelled r.toJson := by
  apply wellSpelled_ofMembers
  simp [wellSpelled_ofTexts]

theorem ofJson?_toJson (r : Rankings) : ofJson? r.toJson = some r := by
  rw [ofJson?, toJson, fields?_ofMembers _ (by simp)]
  simp [List.lookup_cons, required]

end Rankings

namespace Statistics

def numbers (s : Statistics Float) : List Float :=
  [s.avgDegree, s.density]

def counts (s : Statistics Float) : List Nat :=
  [s.nodeCount, s.edgeCount, s.clusterCount, s.cycleCount]

theorem wellSpelled_toJson (s : Statistics Float) : WellSpelled s.toJson := by
  apply wellSpelled_ofMembers
  simp [wellSpelled_ofNat, wellSpelled_ofFloat]

theorem ofJson?_toJson {s : Statistics Float} (hnumbers : ∀ x ∈ s.numbers, Readable x)
    (hcounts : ∀ k ∈ s.counts, k < 2 ^ 64) : ofJson? s.toJson = some s := by
  simp only [numbers, counts, List.mem_cons, List.not_mem_nil, or_false, forall_eq_or_imp, forall_eq]
    at hnumbers hcounts
  obtain ⟨hdegree, hdensity⟩ := hnumbers
  obtain ⟨hnodes, hedges, hclusters, hcycles⟩ := hcounts
  rw [ofJson?, toJson, fields?_ofMembers _ (by simp)]
  simp [List.lookup_cons, required, float?_ofFloat hdegree, float?_ofFloat hdensity, count?_ofNat hnodes,
    count?_ofNat hedges, count?_ofNat hclusters, count?_ofNat hcycles]

end Statistics

namespace Graph

def numbers (g : Graph Float) : List Float :=
  g.nodes.flatMap Node.numbers ++ g.edges.map (·.weight) ++ g.statistics.numbers

def counts (g : Graph Float) : List Nat :=
  g.nodes.flatMap Node.counts ++ g.clusters.flatMap Cluster.counts ++ g.statistics.counts

theorem wellSpelled_toJson (g : Graph Float) : WellSpelled g.toJson := by
  apply wellSpelled_ofMembers
  simp [wellSpelled_array_map fun n _ => Node.wellSpelled_toJson n,
    wellSpelled_array_map fun e _ => Edge.wellSpelled_toJson e,
    wellSpelled_array_map fun c _ => Cluster.wellSpelled_toJson c,
    wellSpelled_array_map fun c _ => wellSpelled_ofTexts c,
    Rankings.wellSpelled_toJson, Statistics.wellSpelled_toJson]

theorem ofJson?_toJson {g : Graph Float} (hnumbers : ∀ x ∈ g.numbers, Readable x)
    (hcounts : ∀ k ∈ g.counts, k < 2 ^ 64) (hpaths : g.hasTextPaths = true) : ofJson? g.toJson = some g := by
  have hnodes : list? Node.ofJson? (.array (g.nodes.map Node.toJson)) = some g.nodes := by
    refine list?_array_map fun n hn => Node.ofJson?_toJson (fun x hx => hnumbers x ?_) (fun k hk => hcounts k ?_)
      (List.all_eq_true.mp hpaths n hn)
    · simp only [numbers, List.mem_append, List.mem_flatMap]
      exact .inl (.inl ⟨n, hn, hx⟩)
    · simp only [counts, List.mem_append, List.mem_flatMap]
      exact .inl (.inl ⟨n, hn, hk⟩)
  have hedges : list? Edge.ofJson? (.array (g.edges.map Edge.toJson)) = some g.edges := by
    refine list?_array_map fun e he => Edge.ofJson?_toJson (hnumbers e.weight ?_)
    simp only [numbers, List.mem_append, List.mem_map]
    exact .inl (.inr ⟨e, he, rfl⟩)
  have hclusters : list? Cluster.ofJson? (.array (g.clusters.map Cluster.toJson)) = some g.clusters := by
    refine list?_array_map fun c hc => Cluster.ofJson?_toJson fun k hk => hcounts k ?_
    simp only [counts, List.mem_append, List.mem_flatMap]
    exact .inl (.inr ⟨c, hc, hk⟩)
  have hcycles : list? (list? text?) (.array (g.cycles.map Json.ofTexts)) = some g.cycles :=
    list?_array_map fun c _ => list?_ofTexts c
  have hstatistics := @Statistics.ofJson?_toJson g.statistics
    (fun x hx => hnumbers x (List.mem_append_right _ hx)) (fun k hk => hcounts k (List.mem_append_right _ hk))
  rw [ofJson?, toJson, fields?_ofMembers _ (by simp)]
  simp [List.lookup_cons, required, hnodes, hedges, hclusters, hcycles, g.rankings.ofJson?_toJson, hstatistics]

theorem write_graph_eq_ok_iff {g : Graph Float} {maxNodes : Nat} {text : List Char} :
    g.write .graph maxNodes = .ok text ↔ g.hasTextPaths = true ∧ g.toJson.pretty = text := by
  unfold write
  cases g.hasTextPaths <;> simp [render]

theorem hasTextPaths_iff {g : Graph Float} :
    g.hasTextPaths = true ↔ ∀ n ∈ g.nodes, ∃ s : String, n.file.absolutePath = ⟨s⟩ := by
  have htext : ∀ p : Path, p.raw.text?.isSome = true ↔ ∃ s : String, p = ⟨s⟩ := by
    rintro ⟨raw⟩
    simp [Option.isSome_iff_exists, RawText.text?_eq_some_iff]
  rw [hasTextPaths, List.all_eq_true]
  simp only [htext]

end Graph

namespace NodeLink

theorem wellSpelled_toJson (n : NodeLink) : WellSpelled n.toJson := by
  have hnode : ∀ l : LinkNode, WellSpelled l.toJson := fun l =>
    wellSpelled_ofMembers (by simp [wellSpelled_ofText, wellSpelled_ofFloat])
  have hlink : ∀ l : Link, WellSpelled l.toJson := fun l =>
    wellSpelled_ofMembers (by simp [wellSpelled_ofText, wellSpelled_ofFloat])
  apply wellSpelled_ofMembers
  simp [wellSpelled_array_map fun l _ => hnode l, wellSpelled_array_map fun l _ => hlink l]

theorem ofJson?_toJson {n : NodeLink} (hnodes : ∀ l ∈ n.nodes, Readable l.score)
    (hlinks : ∀ l ∈ n.links, Readable l.value) : ofJson? n.toJson = some n := by
  have hnode : ∀ l ∈ n.nodes, LinkNode.ofJson? l.toJson = some l := by
    intro l hl
    rw [LinkNode.ofJson?, LinkNode.toJson, fields?_ofMembers _ (by simp)]
    simp [List.lookup_cons, required, float?_ofFloat (hnodes l hl)]
  have hlink : ∀ l ∈ n.links, Link.ofJson? l.toJson = some l := by
    intro l hl
    rw [Link.ofJson?, Link.toJson, fields?_ofMembers _ (by simp)]
    simp [List.lookup_cons, required, float?_ofFloat (hlinks l hl)]
  rw [ofJson?, toJson, fields?_ofMembers _ (by simp)]
  simp [List.lookup_cons, required, list?_array_map hnode, list?_array_map hlink]

end NodeLink

/-- A graph can be written exactly if its paths are texts. What is written of it reads back as the graph, and the text
of its nodes and links as these, if its doubles are finite and their decimals lead back to them. Its counts are those of
words of 64 bits. -/
theorem Graph.render_reads_back (g : Graph Float) (hnumbers : ∀ x ∈ g.numbers, Readable x)
    (hcounts : ∀ k ∈ g.counts, k < 2 ^ 64) (maxNodes : Nat) :
    ((∃ text, g.write .graph maxNodes = .ok text) ↔ ∀ n ∈ g.nodes, ∃ s : String, n.file.absolutePath = ⟨s⟩) ∧
    (∀ text, g.write .graph maxNodes = .ok text → (parse? text).bind Graph.ofJson? = some g) ∧
    ∃ text, g.write .nodeLink maxNodes = .ok text ∧ (parse? text).bind NodeLink.ofJson? = some (NodeLink.ofGraph g) := by
  refine ⟨?_, fun text htext => ?_, _, rfl, ?_⟩
  · simp only [write_graph_eq_ok_iff, ← hasTextPaths_iff, exists_and_left, exists_eq', and_true]
  · obtain ⟨hpaths, rfl⟩ := write_graph_eq_ok_iff.mp htext
    rw [g.wellSpelled_toJson.parse?_pretty]
    exact Graph.ofJson?_toJson hnumbers hcounts hpaths
  · rw [Graph.render, (NodeLink.wellSpelled_toJson _).parse?_pretty]
    apply NodeLink.ofJson?_toJson
    · intro l hl
      obtain ⟨n, hn, rfl⟩ := List.mem_map.mp hl
      exact hnumbers _ (by simpa [numbers, Node.numbers] using .inl ⟨n, hn, .inl rfl⟩)
    · intro l hl
      obtain ⟨e, he, rfl⟩ := List.mem_map.mp hl
      exact hnumbers _ (by simpa [numbers] using .inr (.inl ⟨e, he, rfl⟩))

/-- A graph with a quote, a newline and characters outside the basic plane in its texts, an export that is passed
on beside one that is not, and doubles in both layouts. -/
def quotedGraph : Graph Float where
  nodes := [{
    id := "\"a\n😀.ts"
    file := ⟨"\"a\n😀.ts", ⟨"/\"a\n😀.ts"⟩, "ts", "", 1.5e-7⟩
    cluster := "\\"
    exports := [.named "x" .variable 1, .passedOn "*" "./b\t" 2]
    metrics := ⟨0, 1, 0.5, 0.5⟩ }]
  edges := [⟨"\"a\n😀.ts", "", [], true, 0.5⟩]
  clusters := [⟨"\\", [], 0, 1, "é"⟩]
  cycles := [[], ["\x01"]]
  rankings := {}
  statistics := ⟨1, 1, 0.5, 1.5e-7, 1, 2⟩

theorem Graph.render_reads_back_of_quoted :
    (∀ x ∈ quotedGraph.numbers, Readable x) ∧ (∀ k ∈ quotedGraph.counts, k < 2 ^ 64) ∧
    (∃ text, quotedGraph.write .graph 50 = .ok text ∧ (parse? text).bind Graph.ofJson? = some quotedGraph) ∧
    ∃ text, quotedGraph.write .nodeLink 50 = .ok text ∧
      (parse? text).bind NodeLink.ofJson? = some (NodeLink.ofGraph quotedGraph) := by
  have hhalf : Readable 0.5 := by
    refine readable_of_spelling (by decide +kernel) (show _ = some ['0', '.', '5'] by decide +kernel) ?_
    rw [Numeral.toFloat?, Numeral.scale?]
    decide +kernel
  have hsmall : Readable 1.5e-7 := by
    refine readable_of_spelling (by decide +kernel) (show _ = some "1.5e-7".toList by decide +kernel) ?_
    rw [Numeral.toFloat?, Numeral.scale?]
    decide +kernel
  have hnumbers : ∀ x ∈ quotedGraph.numbers, Readable x := by
    simp [quotedGraph, numbers, Node.numbers, Statistics.numbers, hhalf, hsmall]
  have hcounts : ∀ k ∈ quotedGraph.counts, k < 2 ^ 64 := by decide +kernel
  obtain ⟨hwritten, hread, hlinks⟩ := quotedGraph.render_reads_back hnumbers hcounts 50
  obtain ⟨text, htext⟩ := hwritten.mpr (List.forall_mem_singleton.mpr ⟨_, rfl⟩)
  exact ⟨hnumbers, hcounts, ⟨text, htext, hread text htext⟩, hlinks⟩

end ModuleGraph
