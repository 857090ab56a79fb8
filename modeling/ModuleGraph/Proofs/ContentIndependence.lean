import ModuleGraph.Config
import ModuleGraph.Proofs.Assembly
import ModuleGraph.Proofs.ParallelBuild

namespace ModuleGraph

/-- Two trees with the same directories and the same regular files, of which only the one at `l` may have
different contents. -/
structure FileTree.DifferOnlyAt (l : Location) (t₁ t₂ : FileTree) : Prop where
  workingDirectory : t₁.workingDirectory = t₂.workingDirectory
  directories : ∀ d, t₁.hasDirectory d = t₂.hasDirectory d
  regular : ∀ m, (t₁.bytesAt? m).isSome = (t₂.bytesAt? m).isSome
  content : ∀ m, m ≠ l → t₁.bytesAt? m = t₂.bytesAt? m

namespace FileTree.DifferOnlyAt

variable {l : Location} {t₁ t₂ : FileTree} (h : DifferOnlyAt l t₁ t₂)
include h

theorem entryAt?_isSome (m : Location) : (t₁.entryAt? m).isSome = (t₂.entryAt? m).isSome := by
  unfold FileTree.entryAt?
  rw [h.directories m]
  split
  next => rfl
  next => simpa using h.regular m

theorem entryAt? {m : Location} (hm : m ≠ l) : t₁.entryAt? m = t₂.entryAt? m := by
  unfold FileTree.entryAt?
  rw [h.directories m, h.content m hm]

theorem follow? (m : Location) (piece : List UInt8) : t₁.follow? m piece = t₂.follow? m piece := by
  unfold FileTree.follow?
  simp only [h.directories, h.entryAt?_isSome]

theorem locate? (p : Path) : t₁.locate? p = t₂.locate? p := by
  unfold FileTree.locate?
  have hf : t₁.follow? = t₂.follow? := funext fun m => funext fun piece => h.follow? m piece
  rw [hf, h.workingDirectory]

theorem isFile (p : Path) : t₁.isFile p = t₂.isFile p := by
  unfold FileTree.isFile FileTree.find?
  rw [h.locate? p]
  cases t₂.locate? p with
  | none => rfl
  | some m =>
    simp only [Option.bind_some, FileTree.entryAt?, h.directories m]
    have hs := h.regular m
    cases t₂.hasDirectory m <;> cases h₁ : t₁.bytesAt? m <;> cases h₂ : t₂.bytesAt? m <;> simp_all

theorem read? {p : Path} (hp : t₁.locate? p ≠ some l) : t₁.read? p = t₂.read? p := by
  unfold FileTree.read? FileTree.find?
  rw [← h.locate? p]
  cases hl : t₁.locate? p with
  | none => rfl
  | some m =>
    have hm : m ≠ l := fun he => hp (he ▸ hl)
    simp [h.entryAt? hm]

theorem family? {p : Path} (hp : t₁.locate? p ≠ some l) : t₁.family? p = t₂.family? p := by
  unfold FileTree.family?
  rw [h.read? hp]

theorem resolveAs? (r : Resolver) (family : Family) (importer : Path) (spec : String) :
    r.resolveAs? t₁ family importer spec = r.resolveAs? t₂ family importer spec := by
  unfold Resolver.resolveAs?
  rw [funext h.isFile]

theorem resolver {options : ResolveOptions}
    (hc : ∀ name ∈ AliasTable.fileNames, t₁.locate? (options.baseDir.join ⟨name⟩) ≠ some l) :
    Resolver.ofOptions t₁ options = Resolver.ofOptions t₂ options := by
  have hload : AliasTable.load? t₁ options.baseDir = AliasTable.load? t₂ options.baseDir := by
    unfold AliasTable.load?
    simp only [AliasTable.fileNames, List.findSome?_cons, List.findSome?_nil, FileTree.readText?]
    rw [h.read? (hc "tsconfig.json" (by simp [AliasTable.fileNames])),
      h.read? (hc "jsconfig.json" (by simp [AliasTable.fileNames]))]
  unfold Resolver.ofOptions
  rw [hload]

theorem ofFile {p : Path} (hp : t₁.locate? p ≠ some l) : Extraction.ofFile t₁ p = Extraction.ofFile t₂ p := by
  unfold Extraction.ofFile
  rw [h.read? hp]

theorem keep (p : Path) : (Extraction.ofFile t₁ p).keep = (Extraction.ofFile t₂ p).keep := by
  have hread : (t₁.read? p).isSome = (t₂.read? p).isSome := by
    have hfile := h.isFile p
    unfold FileTree.isFile at hfile
    unfold FileTree.read?
    cases h₁ : t₁.find? p with
    | none => cases h₂ : t₂.find? p with
      | none => rfl
      | some e => cases e <;> simp_all
    | some e => cases h₂ : t₂.find? p with
      | none => cases e <;> simp_all
      | some e' => cases e <;> cases e' <;> simp_all
  unfold Extraction.ofFile
  split
  · rfl
  · cases h₁ : t₁.read? p <;> cases h₂ : t₂.read? p <;> simp_all

theorem readsAsSpelledIn {paths : List Path} {p : Path} :
    Extraction.ReadsAsSpelledIn t₁ paths p ↔ Extraction.ReadsAsSpelledIn t₂ paths p := by
  unfold Extraction.ReadsAsSpelledIn
  simp only [h.keep]

end FileTree.DifferOnlyAt

theorem Importer.land_congr {a b : Importer} (hr : ∀ spec, a.resolve? spec = b.resolve? spec)
    (hi : a.index = b.index) (hf : a.family = b.family) (i : Import) : a.land i = b.land i := by
  have hl : ∀ spec, a.land? spec = b.land? spec := fun spec => by
    simp only [Importer.land?, hr spec, hi]
  have hs : a.submodules i = b.submodules i := by
    simp only [Importer.submodules, hr, hi, hl]
  simp only [Importer.land, Importer.landFrom, hl, hs, hf]

namespace Graph

open Extraction

variable {K : Type}

theorem resolveFile_congr {l : Location} {t₁ t₂ : FileTree} (h : t₁.DifferOnlyAt l t₂) (r : Resolver)
    (index : NodeIndex) {p : Path} (hp : t₁.locate? p ≠ some l) (d : Declarations) :
    resolveFile t₁ r index p d = resolveFile t₂ r index p d := by
  unfold resolveFile
  rw [h.family? hp]
  cases t₂.family? p with
  | none => rfl
  | some family =>
    have hland : Importer.land ⟨t₁, r, index, p, family⟩ = Importer.land ⟨t₂, r, index, p, family⟩ :=
      funext (Importer.land_congr (fun spec => h.resolveAs? r family p spec) rfl rfl)
    simp only [Importer.landAll, hland]

section Build

variable {l : Location} {t₁ t₂ : FileTree} (h : t₁.DifferOnlyAt l t₂) {options : ResolveOptions}
  (hc : ∀ name ∈ AliasTable.fileNames, t₁.locate? (options.baseDir.join ⟨name⟩) ≠ some l)
  {files : List (FileRecord K)} {ds₁ ds₂ : List Declarations} (h₁ : MayExtract t₁ files ds₁)
  (h₂ : MayExtract t₂ files ds₂)
include h hc h₁ h₂

theorem parsedWith_congr {i : Nat} {f : FileRecord K} (hi : files[i]? = some f)
    (hf : t₁.locate? f.absolutePath ≠ some l)
    (hread : ReadsAsSpelledIn t₁ (files.map (·.absolutePath)) f.absolutePath) :
    (parsedWith t₁ files options ds₁)[i]? = (parsedWith t₂ files options ds₂)[i]? := by
  obtain ⟨d₁, hd₁⟩ := h₁.getElem? hi
  obtain ⟨d₂, hd₂⟩ := h₂.getElem? hi
  have hsame : d₁ = d₂ := by
    rw [h₁.eq_own hi hd₁ hread, h₂.eq_own hi hd₂ (h.readsAsSpelledIn.mp hread), h.ofFile hf]
  rw [parsedWith_getElem? options hi hd₁, parsedWith_getElem? options hi hd₂, h.resolver hc,
    resolveFile_congr h _ _ hf, hsame]

variable [Scalar K]

theorem outgoing_congr {i : Nat} {f : FileRecord K} (hi : files[i]? = some f)
    (hf : t₁.locate? f.absolutePath ≠ some l)
    (hread : ReadsAsSpelledIn t₁ (files.map (·.absolutePath)) f.absolutePath) :
    (outgoing (parsedWith t₁ files options ds₁))[i]? = (outgoing (parsedWith t₂ files options ds₂))[i]? := by
  rw [outgoing_getElem?, outgoing_getElem?, parsedWith_congr h hc h₁ h₂ hi hf hread, parsedWith_map_file _ h₁.1,
    parsedWith_map_file _ h₂.1]

theorem outgoing_filter_congr {id : String} (hid : ∀ f ∈ files, f.id = id → t₁.locate? f.absolutePath ≠ some l ∧
      ReadsAsSpelledIn t₁ (files.map (·.absolutePath)) f.absolutePath) :
    (outgoing (parsedWith t₁ files options ds₁)).map (List.filter (·.source == id)) =
      (outgoing (parsedWith t₂ files options ds₂)).map (List.filter (·.source == id)) := by
  apply List.ext_getElem?
  intro i
  rw [List.getElem?_map, List.getElem?_map]
  cases hi : files[i]? with
  | none => simp [outgoing_getElem?, parsedWith, List.getElem?_zipWith, hi]
  | some f =>
    by_cases hf : f.id = id
    · obtain ⟨hl, hread⟩ := hid f (List.mem_of_getElem? hi) hf
      rw [outgoing_congr h hc h₁ h₂ hi hl hread]
    · have hempty : ∀ (t : FileTree) (ds : List Declarations), MayExtract t files ds →
          (outgoing (parsedWith t files options ds))[i]?.map (List.filter (·.source == id)) = some [] := by
        intro t ds hds
        obtain ⟨d, hd⟩ := hds.getElem? hi
        obtain ⟨edges, hedges⟩ : ∃ edges, (outgoing (parsedWith t files options ds))[i]? = some edges := by
          simp [outgoing_getElem?, parsedWith_getElem? options hi hd]
        rw [hedges, Option.map_some, Option.some.injEq, List.filter_eq_nil_iff]
        intro e he
        have hs := outgoing_source hedges he
        rw [parsedWith_map_file _ hds.1, idOf_eq hi] at hs
        simpa [hs] using hf
      rw [hempty t₁ ds₁ h₁, hempty t₂ ds₂ h₂]

end Build

/-- Two trees that differ only in the content of one file, which is no configuration file of the project, give
graphs with the same node ids, the same names and members of clusters, and the same exports and the same edges in the
same order for every file that does not name that one and that is read as it is spelled. A file that cannot be read, but
has the components of one that can, depends on what is in that one: it may get its exports. -/
theorem build_unaffected_by_other_content [Scalar K] {l : Location} {t₁ t₂ : FileTree}
    (h : t₁.DifferOnlyAt l t₂) (files : List (FileRecord K)) (options : BuildOptions K)
    (hc : ∀ name ∈ AliasTable.fileNames,
      t₁.locate? (options.resolve.baseDir.join ⟨name⟩) ≠ some l) :
    (∀ g₁ g₂, MayBuild t₁ files options g₁ → MayBuild t₂ files options g₂ →
      g₁.nodes.map (·.id) = g₂.nodes.map (·.id) ∧
      g₁.clusters.map (fun c => (c.name, c.nodes)) = g₂.clusters.map (fun c => (c.name, c.nodes)) ∧
      (∀ (i : Nat) (f : FileRecord K), files[i]? = some f → ∃ n₁ n₂ : Node K, g₁.nodes[i]? = some n₁ ∧
        g₂.nodes[i]? = some n₂ ∧ n₁.file = f ∧ n₂.file = f ∧
        (t₁.locate? f.absolutePath ≠ some l →
          ReadsAsSpelledIn t₁ (files.map (·.absolutePath)) f.absolutePath → n₁.exports = n₂.exports)) ∧
      (∃ out₁ out₂ : List (List (Edge K)), g₁.edges = out₁.flatten ∧ g₂.edges = out₂.flatten ∧
        ∀ (i : Nat) (f : FileRecord K), files[i]? = some f → ∃ es₁ es₂, out₁[i]? = some es₁ ∧
          out₂[i]? = some es₂ ∧ (∀ e ∈ es₁ ++ es₂, e.source = f.id) ∧
          (t₁.locate? f.absolutePath ≠ some l →
            ReadsAsSpelledIn t₁ (files.map (·.absolutePath)) f.absolutePath → es₁ = es₂)) ∧
      ∀ id, (∀ f ∈ files, f.id = id → t₁.locate? f.absolutePath ≠ some l ∧
          ReadsAsSpelledIn t₁ (files.map (·.absolutePath)) f.absolutePath) →
        g₁.dependencies id = g₂.dependencies id) ∧
    ∀ (i : Nat) (f : FileRecord K), files[i]? = some f →
      ¬ReadsAsSpelledIn t₁ (files.map (·.absolutePath)) f.absolutePath →
      ∃ q ∈ files.map (·.absolutePath), q.components = f.absolutePath.components ∧ (t₁.read? q).isSome = true ∧
        ∃ g₁ g₂, MayBuild t₁ files options g₁ ∧ MayBuild t₂ files options g₂ ∧
          g₁.nodes[i]?.map (·.exports) = some (ofFile t₁ q).declarations.exports ∧
          g₂.nodes[i]?.map (·.exports) = some (ofFile t₂ q).declarations.exports := by
  refine ⟨?_, fun i f hi hread => ?_⟩
  · rintro g₁ g₂ ⟨ds₁, h₁, rfl⟩ ⟨ds₂, h₂, rfl⟩
    have hfiles₁ := parsedWith_map_file (t := t₁) options.resolve h₁.1
    have hfiles₂ := parsedWith_map_file (t := t₂) options.resolve h₂.1
    rw [ofDeclarations_eq_assemble, ofDeclarations_eq_assemble]
    refine ⟨?_, ?_, fun i f hi => ?_, ⟨outgoing (parsedWith t₁ files options.resolve ds₁),
      outgoing (parsedWith t₂ files options.resolve ds₂), assemble_edges_eq_flatten _ _,
      assemble_edges_eq_flatten _ _, fun i f hi => ?_⟩, fun id hid => ?_⟩
    · rw [assemble_node_ids, assemble_node_ids, hfiles₁, hfiles₂]
    · rw [assemble_clusters, assemble_clusters, hfiles₁, hfiles₂]
      simp [Cluster.group, Cluster.ofName, Function.comp_def]
    · obtain ⟨d₁, hd₁⟩ := h₁.getElem? hi
      obtain ⟨d₂, hd₂⟩ := h₂.getElem? hi
      have hp₁ := parsedWith_getElem? (t := t₁) options.resolve hi hd₁
      have hp₂ := parsedWith_getElem? (t := t₂) options.resolve hi hd₂
      refine ⟨_, _, by rw [assemble_nodes_getElem?, hp₁]; rfl, by rw [assemble_nodes_getElem?, hp₂]; rfl,
        rfl, rfl, fun hf hread => ?_⟩
      have hp := parsedWith_congr h hc h₁ h₂ hi hf hread
      rw [hp₁, hp₂, Option.some.injEq] at hp
      rw [hp]
      rfl
    · obtain ⟨d₁, hd₁⟩ := h₁.getElem? hi
      obtain ⟨d₂, hd₂⟩ := h₂.getElem? hi
      obtain ⟨es₁, he₁⟩ : ∃ es, (outgoing (parsedWith t₁ files options.resolve ds₁))[i]? = some es := by
        simp [outgoing_getElem?, parsedWith_getElem? options.resolve hi hd₁]
      obtain ⟨es₂, he₂⟩ : ∃ es, (outgoing (parsedWith t₂ files options.resolve ds₂))[i]? = some es := by
        simp [outgoing_getElem?, parsedWith_getElem? options.resolve hi hd₂]
      refine ⟨es₁, es₂, he₁, he₂, fun e he => ?_, fun hf hread => ?_⟩
      · rcases List.mem_append.mp he with he | he
        · rw [outgoing_source he₁ he, hfiles₁, idOf_eq hi]
        · rw [outgoing_source he₂ he, hfiles₂, idOf_eq hi]
      · have hes := outgoing_congr h hc h₁ h₂ hi hf hread
        simpa only [he₁, he₂, Option.some.injEq] using hes
    · unfold dependencies
      rw [assemble_edges_eq_flatten, assemble_edges_eq_flatten, List.filter_flatten, List.filter_flatten,
        outgoing_filter_congr h hc h₁ h₂ hid]
  · obtain ⟨-, q, hq, hcomponents, hkeep⟩ := exists_spelling_of_not_readsAsSpelledIn hread
    obtain ⟨ds₁, h₁, hd₁⟩ := exists_mayExtract_of_spelling hi hq hcomponents hkeep
    obtain ⟨ds₂, h₂, hd₂⟩ := exists_mayExtract_of_spelling hi hq hcomponents (h.keep q ▸ hkeep)
    obtain ⟨-, bytes, hbytes⟩ := ofFile_keep_iff.mp hkeep
    refine ⟨q, hq, hcomponents, by rw [hbytes]; rfl, _, _, ⟨ds₁, h₁, rfl⟩, ⟨ds₂, h₂, rfl⟩, ?_, ?_⟩
    · rw [ofDeclarations_eq_assemble, assemble_nodes_getElem?, parsedWith_getElem? options.resolve hi hd₁]
      rfl
    · rw [ofDeclarations_eq_assemble, assemble_nodes_getElem?, parsedWith_getElem? options.resolve hi hd₂]
      rfl

def neighbours (content : List UInt8) : FileTree where
  files := [(["a.ts"], Utf8.encode "import './b';"), (["b.ts"], content)]

def neighbourRecords : List (FileRecord Float) :=
  [.ofPath ⟨"/"⟩ ⟨"/a.ts"⟩ 0, .ofPath ⟨"/"⟩ ⟨"/b.ts"⟩ 0]

theorem neighbours_differOnlyAt (content₁ content₂ : List UInt8) :
    (neighbours content₁).DifferOnlyAt ["b.ts"] (neighbours content₂) where
  workingDirectory := rfl
  directories _ := rfl
  regular m := by
    simp only [neighbours, FileTree.bytesAt?, List.find?_cons]
    cases decide ((["a.ts"] : Location) = m) with
    | true => rfl
    | false => cases decide ((["b.ts"] : Location) = m) <;> rfl
  content m hm := by
    have hne : ((["b.ts"] : Location) = m) = False := eq_false fun he => hm he.symm
    simp [neighbours, FileTree.bytesAt?, List.find?_cons, hne]

/-- A neighbour whose content is replaced by bytes that are no text keeps the edge that arrives at it. -/
theorem build_unaffected_by_undecodable_neighbour :
    (neighbours (Utf8.encode "export const b = 1;")).DifferOnlyAt ["b.ts"] (neighbours [0xFF, 0x22]) ∧
    ((build (neighbours [0xFF, 0x22]) neighbourRecords (.ofConfig ⟨"/"⟩ {})).dependencies "a.ts").map
      (·.target) = ["b.ts"] ∧
    (build (neighbours (Utf8.encode "export const b = 1;")) neighbourRecords (.ofConfig ⟨"/"⟩ {})).dependencies
      "a.ts" =
    (build (neighbours [0xFF, 0x22]) neighbourRecords (.ofConfig ⟨"/"⟩ {})).dependencies "a.ts" := by
  have hplace : ∀ (t : FileTree) (p : Path), t.locate? p = some (["b.ts"] : Location) →
      (["b.ts"] : Location) = p.components.foldl Location.enter t.workingDirectory := fun t p h => locate?_place h
  have hd := neighbours_differOnlyAt (Utf8.encode "export const b = 1;") [0xFF, 0x22]
  have hbuild := fun content => mayBuild_build (neighbours content) neighbourRecords (.ofConfig ⟨"/"⟩ {})
  refine ⟨hd, by decide +kernel, ((build_unaffected_by_other_content hd neighbourRecords (.ofConfig ⟨"/"⟩ {}) ?_).1 _ _
    (hbuild _) (hbuild _)).2.2.2.2 "a.ts" ?_⟩
  · intro name hname he
    have hp := hplace _ _ he
    simp only [AliasTable.fileNames, List.mem_cons, List.not_mem_nil, or_false] at hname
    rcases hname with rfl | rfl
    · revert hp; decide
    · revert hp; decide
  · intro f hf hid
    simp only [neighbourRecords, List.mem_cons, List.not_mem_nil, or_false] at hf
    rcases hf with rfl | rfl
    · exact ⟨by decide, .inl (by decide +kernel)⟩
    · exact absurd hid (by decide)

/-- A record with a separator at the end of its path does not name the file, yet it follows what is exported there. -/
theorem exports_follow_other_spelling :
    let again : FileRecord Float := { FileRecord.ofPath ⟨"/"⟩ ⟨"/b.ts/"⟩ 0 with relativePath := "again.ts" }
    let files := neighbourRecords ++ [again]
    (neighbours []).DifferOnlyAt ["b.ts"] (neighbours (Utf8.encode "export const b = 1;")) ∧
      (neighbours []).locate? again.absolutePath = none ∧
      (build (neighbours []) files (.ofConfig ⟨"/"⟩ {})).nodes[2]?.map (·.exports) ≠
        (build (neighbours (Utf8.encode "export const b = 1;")) files (.ofConfig ⟨"/"⟩ {})).nodes[2]?.map
          (·.exports) :=
  ⟨neighbours_differOnlyAt _ _, by decide, by decide +kernel⟩

end Graph

end ModuleGraph
