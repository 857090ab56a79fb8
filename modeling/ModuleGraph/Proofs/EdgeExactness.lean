import ModuleGraph.Config
import ModuleGraph.Proofs.Assembly
import ModuleGraph.Proofs.Landing
import ModuleGraph.Proofs.ParallelBuild

namespace ModuleGraph

open Extraction

variable {K : Type}

/-- With the given declarations the file of number `s` depends on the record `target`: they were taken without errors,
the file has a family, and one of the imports that names no builtin lands on the record. -/
def DependsBy (t : FileTree) (files : List (FileRecord K)) (options : ResolveOptions) (d : Declarations)
    (s target : Nat) : Prop :=
  ∃ f family, files[s]? = some f ∧ t.family? f.absolutePath = some family ∧ d.isParsed = true ∧
    ∃ i ∈ d.imports, i.origin ≠ .builtin ∧
      ImportSite.Lands ⟨t, .ofOptions t options, files, f.absolutePath, family⟩ i target

/-- The file of number `s` depends on the record `target` by its own declarations. -/
def DependsOn (t : FileTree) (files : List (FileRecord K)) (options : ResolveOptions) (s target : Nat) :
    Prop :=
  ∃ f, files[s]? = some f ∧ DependsBy t files options (ofFile t f.absolutePath).declarations s target

namespace Graph

theorem resolveFile_targets {t : FileTree} {resolver : Resolver} {files : List (FileRecord K)} {p : Path}
    {d : Declarations} {target : Nat} :
    (∃ r ∈ resolveFile t resolver (.ofPaths (files.map (·.absolutePath))) p d, r.target = target) ↔
      d.isParsed = true ∧ ∃ family, t.family? p = some family ∧ ∃ i ∈ d.imports, i.origin ≠ .builtin ∧
        ImportSite.Lands ⟨t, resolver, files, p, family⟩ i target := by
  unfold resolveFile
  cases hp : d.isParsed with
  | false => simp
  | true =>
    cases hf : t.family? p with
    | none => simp
    | some family =>
      have hland : ∀ i, (∃ r ∈ Importer.land ⟨t, resolver, .ofPaths (files.map (·.absolutePath)), p, family⟩ i,
          r.target = target) ↔ i.origin ≠ .builtin ∧
            ImportSite.Lands ⟨t, resolver, files, p, family⟩ i target :=
        fun i => @ImportSite.land_targets K ⟨t, resolver, files, p, family⟩ i target
      simp only [Bool.not_true, Bool.false_eq_true, if_false, Importer.landAll, List.mem_flatMap,
        true_and, Option.some.injEq, exists_eq_left', ← hland]
      constructor
      · rintro ⟨r, ⟨i, hi, hr⟩, ht⟩
        exact ⟨i, hi, r, hr, ht⟩
      · rintro ⟨i, hi, r, hr, ht⟩
        exact ⟨r, ⟨i, hi, hr⟩, ht⟩

section Ends

variable [Scalar K] {t : FileTree} {files : List (FileRecord K)} {options : ResolveOptions} {ds : List Declarations}

theorem mem_parsedWith_ends (hlength : ds.length = files.length) {s target : Nat} :
    (s, target) ∈ (drafts (parsedWith t files options ds)).map Draft.ends ↔
      ∃ d, ds[s]? = some d ∧ DependsBy t files options d s target := by
  rw [mem_draft_ends]
  cases hf : files[s]? with
  | none =>
    have hp : (parsedWith t files options ds)[s]? = none := by simp [parsedWith, List.getElem?_zipWith, hf]
    simp [hp, DependsBy, hf]
  | some f =>
    obtain ⟨d, hd⟩ : ∃ d, ds[s]? = some d :=
      ⟨_, List.getElem?_eq_getElem (hlength ▸ (List.getElem?_eq_some_iff.mp hf).1)⟩
    rw [parsedWith_getElem? options hf hd, hd]
    simp only [Option.some.injEq, exists_eq_left', resolveFile_targets]
    constructor
    · rintro ⟨hp, family, hfamily, hi⟩
      exact ⟨f, family, hf, hfamily, hp, hi⟩
    · rintro ⟨g, family, hg, hfamily, hp, hi⟩
      obtain rfl := Option.some.inj (hf.symm.trans hg)
      exact ⟨hp, family, hfamily, hi⟩

omit [Scalar K] in
theorem dependsBy_lt {d : Declarations} {s target : Nat} (h : DependsBy t files options d s target) :
    s < files.length ∧ target < files.length := by
  obtain ⟨f, family, hf, -, -, i, -, -, hl⟩ := h
  exact ⟨(List.getElem?_eq_some_iff.mp hf).1, ImportSite.lands_lt hl⟩

theorem parsedFiles_ends_lt {s target : Nat}
    (h : (s, target) ∈ (drafts (parsedFiles t files options)).map Draft.ends) :
    s < files.length ∧ target < files.length := by
  rw [parsedFiles_eq_parsedWith] at h
  obtain ⟨d, -, hd⟩ := (mem_parsedWith_ends (length_extractAll {})).mp h
  exact dependsBy_lt hd

theorem ofDeclarations_edge_ends (options : BuildOptions K) (hlength : ds.length = files.length) :
    (ofDeclarations t files options ds).edges.map (fun e => (e.source, e.target)) =
      ((drafts (parsedWith t files options.resolve ds)).map Draft.ends).map
        fun ends => (idOf files ends.1, idOf files ends.2) := by
  rw [ofDeclarations_eq_assemble, assemble_edges, parsedWith_map_file _ hlength, List.map_map, List.map_map]
  rfl

theorem build_edge_ends (t : FileTree) (files : List (FileRecord K)) (options : BuildOptions K) :
    (build t files options).edges.map (fun e => (e.source, e.target)) =
      ((drafts (parsedFiles t files options.resolve)).map Draft.ends).map
        fun ends => (idOf files ends.1, idOf files ends.2) := by
  rw [parsedFiles_eq_parsedWith, ← ofDeclarations_edge_ends options (length_extractAll {}),
    ← buildIn_eq_ofDeclarations]
  rfl

end Ends

theorem not_dependsOn_of_not_keep {t : FileTree} {files : List (FileRecord K)} {options : ResolveOptions}
    {s target : Nat} {f : FileRecord K} (hf : files[s]? = some f) (hkeep : (ofFile t f.absolutePath).keep = false) :
    ¬DependsOn t files options s target := by
  rintro ⟨g, hg, -, -, -, -, hparsed, -⟩
  rw [hf, Option.some.injEq] at hg
  subst g
  have hfailed : (ofFile t f.absolutePath).declarations.isParsed = false := by
    revert hkeep
    unfold ofFile
    split
    · exact fun _ => rfl
    · split
      · exact fun h => Bool.noConfusion h
      · exact fun _ => rfl
  rw [hfailed] at hparsed
  exact Bool.false_ne_true hparsed

/-- A graph has an edge between two ids exactly when a file of the one id depends on a record of the other; and its edges
are one for each dependency, also where ids are repeated. -/
structure EdgesExact (t : FileTree) (files : List (FileRecord K)) (options : ResolveOptions) (g : Graph K) : Prop where
  between : ∀ a b, (∃ e ∈ g.edges, e.source = a ∧ e.target = b) ↔
    ∃ s target f f', files[s]? = some f ∧ files[target]? = some f' ∧ f.id = a ∧ f'.id = b ∧
      DependsOn t files options s target
  pairs : ∃ pairs : List (Nat × Nat), pairs.Nodup ∧
    (∀ s target, (s, target) ∈ pairs ↔ DependsOn t files options s target) ∧
    g.edges.map (fun e => (e.source, e.target)) = pairs.map fun ends => (idOf files ends.1, idOf files ends.2)

theorem EdgesExact.of_pairs {t : FileTree} {files : List (FileRecord K)} {options : ResolveOptions} {g : Graph K}
    {pairs : List (Nat × Nat)} (hnodup : pairs.Nodup)
    (hpairs : ∀ s target, (s, target) ∈ pairs ↔ DependsOn t files options s target)
    (hends : g.edges.map (fun e => (e.source, e.target)) =
      pairs.map fun ends => (idOf files ends.1, idOf files ends.2)) : EdgesExact t files options g := by
  refine ⟨fun a b => ⟨?_, ?_⟩, pairs, hnodup, hpairs, hends⟩
  · rintro ⟨e, he, rfl, rfl⟩
    have hm : (e.source, e.target) ∈ g.edges.map (fun e => (e.source, e.target)) := List.mem_map.mpr ⟨e, he, rfl⟩
    rw [hends] at hm
    obtain ⟨⟨s, target⟩, hst, hid⟩ := List.mem_map.mp hm
    obtain ⟨_, -, hby⟩ := (hpairs s target).mp hst
    obtain ⟨hs, ht⟩ := dependsBy_lt hby
    obtain ⟨h1, h2⟩ := Prod.mk.inj hid
    have hf : files[s]? = some files[s] := List.getElem?_eq_getElem hs
    have hg : files[target]? = some files[target] := List.getElem?_eq_getElem ht
    exact ⟨s, target, files[s], files[target], hf, hg, (idOf_eq hf).symm.trans h1,
      (idOf_eq hg).symm.trans h2, (hpairs s target).mp hst⟩
  · rintro ⟨s, target, f, f', hf, hf', rfl, rfl, hd⟩
    have hm : (f.id, f'.id) ∈ g.edges.map (fun e => (e.source, e.target)) := by
      rw [hends, ← idOf_eq hf, ← idOf_eq hf']
      exact List.mem_map.mpr ⟨(s, target), (hpairs s target).mpr hd, rfl⟩
    obtain ⟨e, he, hid⟩ := List.mem_map.mp hm
    exact ⟨e, he, (Prod.mk.inj hid).1, (Prod.mk.inj hid).2⟩

section Exactness

variable [Scalar K] {t : FileTree} {files : List (FileRecord K)} {ds : List Declarations}

theorem MayExtract.mem_ends_of_own (h : MayExtract t files ds) (options : ResolveOptions) {s target : Nat}
    {f : FileRecord K} (hf : files[s]? = some f) (hown : ds[s]? = some (ofFile t f.absolutePath).declarations) :
    (s, target) ∈ (drafts (parsedWith t files options ds)).map Draft.ends ↔ DependsOn t files options s target := by
  rw [mem_parsedWith_ends h.1, hown, DependsOn, hf]
  simp

theorem MayExtract.mem_ends_of_spelled (h : MayExtract t files ds) (options : ResolveOptions) {s target : Nat}
    {f : FileRecord K} (hf : files[s]? = some f)
    (hread : ReadsAsSpelledIn t (files.map (·.absolutePath)) f.absolutePath) :
    (s, target) ∈ (drafts (parsedWith t files options ds)).map Draft.ends ↔ DependsOn t files options s target := by
  obtain ⟨d, hd⟩ := h.getElem? hf
  exact h.mem_ends_of_own options hf (h.eq_own hf hd hread ▸ hd)

theorem MayExtract.mem_ends_of_dependsOn (h : MayExtract t files ds) {options : ResolveOptions} {s target : Nat}
    (hdep : DependsOn t files options s target) :
    (s, target) ∈ (drafts (parsedWith t files options ds)).map Draft.ends := by
  have ⟨f, hf, _⟩ := hdep
  have hkeep : (ofFile t f.absolutePath).keep = true := by
    by_contra hk
    exact not_dependsOn_of_not_keep hf (Bool.eq_false_iff.mpr hk) hdep
  exact (h.mem_ends_of_spelled options hf (.inl hkeep)).mpr hdep

/-- The edges are exact when no file that cannot be read would depend on anything by the declarations of another
spelling. -/
theorem MayExtract.edgesExact (h : MayExtract t files ds) (options : BuildOptions K)
    (hnone : ∀ s f q target, files[s]? = some f → (ofFile t f.absolutePath).keep = false →
      q ∈ files.map (·.absolutePath) → q.components = f.absolutePath.components → (ofFile t q).keep = true →
      ¬DependsBy t files options.resolve (ofFile t q).declarations s target) :
    EdgesExact t files options.resolve (ofDeclarations t files options ds) := by
  refine EdgesExact.of_pairs (draft_ends_nodup _) (fun s target => ⟨fun hm => ?_, h.mem_ends_of_dependsOn⟩)
    (ofDeclarations_edge_ends options h.1)
  obtain ⟨d, hd, hby⟩ := (mem_parsedWith_ends h.1).mp hm
  have ⟨f, _, hf, _⟩ := hby
  cases hkeep : (ofFile t f.absolutePath).keep with
  | true => exact (h.mem_ends_of_spelled options.resolve hf (.inl hkeep)).mp hm
  | false =>
    rcases h.own_or_among hf hd with rfl | ⟨q, hq, hc, hqkeep, rfl⟩
    · exact ⟨f, hf, hby⟩
    · exact absurd hby (hnone s f q target hf hkeep hq hc hqkeep)

theorem MayExtract.not_edgesExact (h : MayExtract t files ds) (options : BuildOptions K) {s target : Nat}
    {f : FileRecord K} (hf : files[s]? = some f) (hkeep : (ofFile t f.absolutePath).keep = false)
    {d : Declarations} (hd : ds[s]? = some d) (hby : DependsBy t files options.resolve d s target) :
    ¬EdgesExact t files options.resolve (ofDeclarations t files options ds) := by
  rintro ⟨-, pairs, hnodup, hpairs, hends⟩
  rw [ofDeclarations_edge_ends options h.1] at hends
  set ends := (drafts (parsedWith t files options.resolve ds)).map Draft.ends with hdef
  have hextra : (s, target) ∈ ends := (mem_parsedWith_ends h.1).mpr ⟨d, hd, hby⟩
  have hmissing : (s, target) ∉ pairs := fun hm => not_dependsOn_of_not_keep hf hkeep ((hpairs s target).mp hm)
  have hsub : (s, target) :: pairs ⊆ ends := by
    rintro ⟨s', target'⟩ hm
    rcases List.mem_cons.mp hm with heq | hm
    · exact heq ▸ hextra
    · exact h.mem_ends_of_dependsOn ((hpairs s' target').mp hm)
  have hle := (List.subperm_of_subset (List.nodup_cons.mpr ⟨hmissing, hnodup⟩) hsub).length_le
  have hlength := congrArg List.length hends
  simp only [List.length_map] at hlength
  rw [List.length_cons] at hle
  omega

end Exactness

/-- In whatever order the files are read, the files that are read as they are spelled have just the edges of their
dependencies, and no edge leads out of the list. The edges of all files are exact in every order exactly when no file
that cannot be read would depend on anything by the declarations of a file of the list with the same components. -/
theorem build_edges_exact [Scalar K] (t : FileTree) (files : List (FileRecord K)) (options : BuildOptions K) :
    MayBuild t files options (build t files options) ∧
    (∀ g, MayBuild t files options g → ∃ pairs : List (Nat × Nat), pairs.Nodup ∧
      g.edges.map (fun e => (e.source, e.target)) = pairs.map (fun ends => (idOf files ends.1, idOf files ends.2)) ∧
      (∀ s target, (s, target) ∈ pairs → s < files.length ∧ target < files.length) ∧
      (∀ s target, DependsOn t files options.resolve s target → (s, target) ∈ pairs) ∧
      ∀ s f target, files[s]? = some f → ReadsAsSpelledIn t (files.map (·.absolutePath)) f.absolutePath →
        ((s, target) ∈ pairs ↔ DependsOn t files options.resolve s target)) ∧
    ((∀ g, MayBuild t files options g → EdgesExact t files options.resolve g) ↔
      ∀ s f q target, files[s]? = some f → (ofFile t f.absolutePath).keep = false →
        q ∈ files.map (·.absolutePath) → q.components = f.absolutePath.components → (ofFile t q).keep = true →
        ¬DependsBy t files options.resolve (ofFile t q).declarations s target) := by
  refine ⟨mayBuild_build t files options, ?_, ?_, ?_⟩
  · rintro g ⟨ds, hds, rfl⟩
    refine ⟨_, draft_ends_nodup _, ofDeclarations_edge_ends options hds.1, fun s target hm => ?_,
      fun s target => hds.mem_ends_of_dependsOn, fun s f target hf hread => hds.mem_ends_of_spelled _ hf hread⟩
    obtain ⟨d, -, hby⟩ := (mem_parsedWith_ends hds.1).mp hm
    exact dependsBy_lt hby
  · intro hall s f q target hf hkeep hq hc hqkeep hby
    obtain ⟨ds, hds, hd⟩ := exists_mayExtract_of_spelling hf hq hc hqkeep
    exact hds.not_edgesExact options hf hkeep hd hby (hall _ ⟨ds, hds, rfl⟩)
  · rintro hnone g ⟨ds, hds, rfl⟩
    exact hds.edgesExact options hnone

def importerTree : FileTree where
  files := [(["a.ts"], Utf8.encode "import './b';"), (["b.ts"], [])]

def importerRecord : FileRecord Float :=
  .ofPath ⟨"/"⟩ ⟨"/a.ts"⟩ 0

def importedRecord : FileRecord Float :=
  .ofPath ⟨"/"⟩ ⟨"/b.ts"⟩ 0

theorem number_of_id {files : List (FileRecord K)} {i j : Nat} {f : FileRecord K} {id : String} (hi : files[i]? = some f)
    (hid : f.id = id) (hj : (files.map (·.id))[j]? = some id) (hnodup : (files.map (·.id)).Nodup) : i = j := by
  have hlt : i < (files.map (·.id)).length := by
    rw [List.length_map]
    exact (List.getElem?_eq_some_iff.mp hi).1
  refine (List.getElem?_inj hlt hnodup).mp ?_
  rw [hj, List.getElem?_map, hi, Option.map_some, hid]

theorem build_edges_exact_of_two_files :
    let files := [importerRecord, importedRecord]
    let options : BuildOptions Float := .ofConfig ⟨"/"⟩ {}
    EdgesExact importerTree files options.resolve (build importerTree files options) ∧
      DependsOn importerTree files options.resolve 0 1 := by
  intro files options
  have hkeep : ∀ (s : Nat) (f : FileRecord Float), files[s]? = some f →
      (ofFile importerTree f.absolutePath).keep = true := by
    intro s f hf
    have hmem := List.mem_of_getElem? hf
    simp only [files, List.mem_cons, List.not_mem_nil, or_false] at hmem
    rcases hmem with rfl | rfl <;> decide +kernel
  obtain ⟨hbuild, hspelled, hall⟩ := build_edges_exact importerTree files options
  have hexact : EdgesExact importerTree files options.resolve (build importerTree files options) := by
    refine hall.mpr (fun s f q target hf hk => ?_) _ hbuild
    rw [hkeep s f hf] at hk
    contradiction
  have hedge : ("a.ts", "b.ts") ∈ (build importerTree files options).edges.map (fun e => (e.source, e.target)) := by
    decide +kernel
  obtain ⟨e, he, hid⟩ := List.mem_map.mp hedge
  obtain ⟨s, target, f, f', hf, hf', hsource, htarget, hdep⟩ := (hexact.between _ _).mp
    ⟨e, he, (Prod.mk.inj hid).1, (Prod.mk.inj hid).2⟩
  have hs : s = 0 := number_of_id hf hsource (by decide +kernel) (by decide +kernel)
  have ht : target = 1 := number_of_id hf' htarget (by decide +kernel) (by decide +kernel)
  exact ⟨hexact, hs ▸ ht ▸ hdep⟩

/-- A record with a separator at the end of its path names no file, yet it gets the edge of the file. -/
theorem edge_out_of_unreadable_spelling :
    let again : FileRecord Float := { FileRecord.ofPath ⟨"/"⟩ ⟨"/a.ts/"⟩ 0 with relativePath := "again.ts" }
    let files := [importerRecord, again, importedRecord]
    let options : BuildOptions Float := .ofConfig ⟨"/"⟩ {}
    importerTree.locate? again.absolutePath = none ∧
      (build importerTree files options).edges.map (fun e => (e.source, e.target)) =
        [("a.ts", "b.ts"), ("again.ts", "b.ts")] ∧
      (∀ target, ¬DependsOn importerTree files options.resolve 1 target) ∧
      ¬EdgesExact importerTree files options.resolve (build importerTree files options) := by
  intro again files options
  have hedges : (build importerTree files options).edges.map (fun e => (e.source, e.target)) =
      [("a.ts", "b.ts"), ("again.ts", "b.ts")] := by decide +kernel
  have hnone : ∀ target, ¬DependsOn importerTree files options.resolve 1 target :=
    fun target => not_dependsOn_of_not_keep (f := again) rfl (by decide +kernel)
  refine ⟨by decide +kernel, hedges, hnone, fun hexact => ?_⟩
  have hmem : ("again.ts", "b.ts") ∈ (build importerTree files options).edges.map (fun e => (e.source, e.target)) := by
    rw [hedges]
    decide
  obtain ⟨e, he, hid⟩ := List.mem_map.mp hmem
  obtain ⟨s, target, f, f', hf, -, hsource, -, hdep⟩ := (hexact.between _ _).mp
    ⟨e, he, (Prod.mk.inj hid).1, (Prod.mk.inj hid).2⟩
  have hs : s = 1 := number_of_id hf hsource (by decide +kernel) (by decide +kernel)
  exact hnone target (hs ▸ hdep)

end Graph

end ModuleGraph
