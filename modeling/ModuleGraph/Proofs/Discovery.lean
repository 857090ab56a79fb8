import ModuleGraph.Proofs.Encoding
import ModuleGraph.Proofs.ExactNumbers
import ModuleGraph.Proofs.SortOrder
import ModuleGraph.Proofs.TreePath
import Mathlib.Data.String.Basic

namespace ModuleGraph

open Text (pieces)

namespace Path

theorem stripComponents?_append (cs ds : List Component) : stripComponents? cs (cs ++ ds) = some ds := by
  induction cs with
  | nil => rfl
  | cons c cs ih => rw [List.cons_append, stripComponents?, if_pos rfl, ih]

theorem slashed_names (names : List RawText) :
    slashed (names.map .name) = "/".intercalate (names.map RawText.lossy) := by
  rw [slashed, List.map_map]
  rfl

theorem parentOf?_names (above : List RawText) (name : RawText) :
    parentOf? ((above ++ [name]).map .name) = some (above.map .name) := by
  simp [parentOf?]

theorem splitName_extension {name : RawText} {extension : String}
    (h : (splitName name).2.bind RawText.text? = some extension) : '.' ∉ extension.toList := by
  obtain ⟨ending, hending, htext⟩ := Option.bind_eq_some_iff.mp h
  rw [RawText.text?_eq_some_iff.mp htext] at hending
  rw [← Utf8.mem_bytes_iff bytes_dot, ← RawText.toList_ofString]
  unfold splitName at hending
  dsimp only at hending
  split at hending
  · rw [← Option.some.inj hending, List.mem_reverse]
    intro hdot
    simpa using List.mem_takeWhile_imp hdot
  · cases hending

end Path

theorem pieces_intercalate {names : List String} (hne : names ≠ []) (hnames : ∀ n ∈ names, '/' ∉ n.toList) :
    pieces (· == '/') ("/".intercalate names).toList = names.map String.toList := by
  induction names with
  | nil => exact absurd rfl hne
  | cons n names ih =>
    obtain ⟨hn, hnames⟩ := List.forall_mem_cons.mp hnames
    have hpiece : pieces (· == '/') n.toList = [n.toList] := Text.pieces_of_forall (Text.forall_beq_of_not_mem hn)
    cases names with
    | nil => simpa [String.toList_intercalate] using hpiece
    | cons m names =>
      have ih := ih (List.cons_ne_nil m names) hnames
      rw [String.toList_intercalate, List.map_cons] at ih ⊢
      have hslash : "/".toList = ['/'] := rfl
      rw [hslash] at ih ⊢
      rw [List.map_cons, List.intercalate_cons_cons, List.append_assoc, List.singleton_append,
        Text.pieces_append_sep (by rfl), hpiece, ih]
      rfl

theorem intercalate_inj {names names' : List String} (hne : names ≠ []) (hne' : names' ≠ [])
    (hnames : ∀ n ∈ names, '/' ∉ n.toList) (hnames' : ∀ n ∈ names', '/' ∉ n.toList)
    (h : "/".intercalate names = "/".intercalate names') : names = names' := by
  have hpieces := pieces_intercalate hne hnames
  rw [h, pieces_intercalate hne' hnames'] at hpieces
  exact (List.map_injective_iff.mpr fun _ _ hs => String.toList_injective hs) hpieces.symm

theorem IsEntryName.not_mem_lossy {n : RawText} (h : IsEntryName n) : '/' ∉ n.lossy.toList :=
  RawText.not_mem_lossy Path.bytes_slash h.2.2.2

namespace Family

def extensions : List String :=
  curlyExtensions ++ indentExtensions

theorem ofExtension?_isSome_iff {extension : String} (h : '.' ∉ extension.toList) :
    (ofExtension? extension).isSome ↔ extension ∈ extensions := by
  have hbare : extension.toList.dropWhile (· == '.') = extension.toList := by
    refine Text.dropWhile_eq_self fun c hc => ?_
    rw [beq_eq_false_iff_ne]
    rintro rfl
    exact h hc
  rw [ofExtension?, hbare, String.ofList_toList, extensions, List.mem_append]
  by_cases hcurly : extension ∈ curlyExtensions
  · simp [hcurly]
  · by_cases hindent : extension ∈ indentExtensions <;> simp [hcurly, hindent]

/-- A file that a family can read: its extension is supported, or it has none that is a text and its first line names
an interpreter. -/
def CanRead (name : RawText) (bytes : List UInt8) : Prop :=
  (∃ extension ∈ extensions, (Path.splitName name).2.bind RawText.text? = some extension) ∨
    (Path.splitName name).2.bind RawText.text? = none ∧ ∃ text, Utf8.decode? bytes = some text ∧ (ofShebang? text).isSome

end Family

namespace FileTree

variable {t : FileTree} {root : Path} {l : Location}

/-- What is recorded of a source file that some names lead to from a root. -/
def sourceRecord {K : Type} [Scalar K] (root : Path) (above : List RawText) (name : RawText) : FileRecord K :=
  { relativePath := "/".intercalate ((above ++ [name]).map RawText.lossy)
    absolutePath := pathBelow root (above ++ [name])
    extension := ((Path.splitName name).2.bind RawText.text?).getD ""
    directory := "/".intercalate (above.map RawText.lossy)
    score := Scalar.zero }

/-- A file that a family can read and that no directory with a pruned name hides from a place above it. -/
def ShownBelow (t : FileTree) (l : Location) (above : List RawText) (name : RawText) : Prop :=
  ∃ bytes, (l ++ (above ++ [name]), bytes) ∈ t.files ∧ (∀ n ∈ above, n ∉ prunedNames.map RawText.ofString) ∧ Family.CanRead name bytes

theorem below?_eq_some {m : Location} {names : List RawText} :
    below? l m = some names ↔ m = l ++ names ∧ names ≠ [] := by
  rw [below?]
  split
  case isTrue h =>
    obtain ⟨⟨rest, rfl⟩, hne⟩ := And.imp_left List.isPrefixOf_iff_prefix.mp h
    simp only [List.drop_left, Option.some.injEq, List.append_cancel_left_eq]
    refine ⟨fun hrest => ⟨hrest, ?_⟩, And.left⟩
    rintro rfl
    simp [hrest] at hne
  case isFalse h =>
    refine ⟨fun hnone => absurd hnone (by simp), ?_⟩
    rintro ⟨rfl, hne⟩
    exact absurd ⟨List.isPrefixOf_iff_prefix.mpr (List.prefix_append l names), by simpa using hne⟩ h

theorem isPruned_eq_true_iff {n : RawText} : isPruned n = true ↔ n ∈ prunedNames.map RawText.ofString := by
  have hplain : ∀ s ∈ prunedNames, '\uFFFD' ∉ s.toList := by decide
  rw [isPruned, decide_eq_true_eq, List.mem_map]
  constructor
  · exact fun h => ⟨_, h, ((RawText.lossy_eq_iff (hplain _ h)).mp rfl).symm⟩
  · rintro ⟨s, hs, rfl⟩
    rwa [RawText.lossy_ofString]

theorem mem_filesBelow {names : List RawText} : names ∈ t.filesBelow l ↔
    names ≠ [] ∧ (∃ bytes, (l ++ names, bytes) ∈ t.files) ∧ ∀ n ∈ names, n ∉ prunedNames.map RawText.ofString := by
  have hpruned : (!names.any isPruned) = true ↔ ∀ n ∈ names, n ∉ prunedNames.map RawText.ofString := by
    simp only [Bool.not_eq_true', List.any_eq_false, isPruned_eq_true_iff]
  simp only [filesBelow, List.mem_filterMap, Option.filter_eq_some_iff, below?_eq_some, hpruned]
  constructor
  · rintro ⟨⟨m, bytes⟩, hmem, ⟨rfl, hne⟩, hnames⟩
    exact ⟨hne, ⟨bytes, hmem⟩, hnames⟩
  · rintro ⟨hne, ⟨bytes, hmem⟩, hnames⟩
    exact ⟨_, hmem, ⟨rfl, hne⟩, hnames⟩

theorem filesBelow_nodup (h : (t.files.map (·.1)).Nodup) (l : Location) : (t.filesBelow l).Nodup := by
  have hfiles : t.filesBelow l = (t.files.map (·.1)).filterMap
      fun m => (below? l m).filter fun names => !names.any isPruned := by
    rw [List.filterMap_map]
    rfl
  rw [hfiles]
  refine h.filterMap fun m m' names hm hm' => ?_
  rw [(below?_eq_some.mp (Option.filter_eq_some_iff.mp hm).1).1,
    (below?_eq_some.mp (Option.filter_eq_some_iff.mp hm').1).1]

section Records

variable {above : List RawText} {name : RawText} (hroot : root.raw.toList ≠ [])
  (hnames : ∀ n ∈ above ++ [name], IsEntryName n)
include hroot hnames

theorem fileName?_pathBelow : (pathBelow root (above ++ [name])).fileName? = some name := by
  rw [Path.fileName?, components_pathBelow hroot hnames]
  simp

theorem extension?_pathBelow : (pathBelow root (above ++ [name])).extension? =
    (Path.splitName name).2.bind RawText.text? := by
  rw [Path.extension?, fileName?_pathBelow hroot hnames]
  rfl

theorem ofPath_pathBelow {K : Type} [Scalar K] :
    FileRecord.ofPath root (pathBelow root (above ++ [name])) (Scalar.zero : K) = sourceRecord root above name := by
  have hrelative : FileRecord.relativeComponents root (pathBelow root (above ++ [name])) =
      (above ++ [name]).map .name := by
    rw [FileRecord.relativeComponents, components_pathBelow hroot hnames, Path.stripComponents?_append]
    rfl
  simp only [FileRecord.ofPath, hrelative, Path.slashed_names, Path.parentOf?_names, Option.getD_some,
    extension?_pathBelow hroot hnames, sourceRecord]

theorem isSource_pathBelow_iff {bytes : List UInt8} (hread : t.read? (pathBelow root (above ++ [name])) = some bytes) :
    t.isSource (pathBelow root (above ++ [name])) = true ↔ Family.CanRead name bytes := by
  rw [isSource, extension?_pathBelow hroot hnames, Family.CanRead]
  cases hextension : (Path.splitName name).2.bind RawText.text? with
  | some extension => simp [Family.ofExtension?_isSome_iff (Path.splitName_extension hextension)]
  | none => simp [readText?, hread, Option.isSome_bind, Option.any_eq_true]

end Records

theorem isPrecedence_relativePath {K : Type} :
    IsPrecedence fun a b : FileRecord K => decide (a.relativePath < b.relativePath) := by
  constructor
  · intro a b hab
    exact decide_eq_false (lt_asymm (of_decide_eq_true hab))
  · intro a b c hab hbc
    exact decide_eq_false (not_lt.mpr ((not_lt.mp (of_decide_eq_false hbc)).trans (not_lt.mp (of_decide_eq_false hab))))

theorem stableSort_ordered {K : Type} (records : List (FileRecord K)) :
    (stableSort (fun a b => a.relativePath < b.relativePath) records).Pairwise fun r s =>
      Utf8.encode r.relativePath < Utf8.encode s.relativePath ∨ r.relativePath = s.relativePath := by
  refine (isPrecedence_relativePath.stableSort_pairwise records).imp fun {r s} hle => ?_
  rcases lt_or_eq_of_le (not_lt.mp (of_decide_eq_false hle)) with hlt | heq
  · exact .inl (Utf8.encode_lt hlt)
  · exact .inr heq

theorem stableSort_strict {K : Type} {records : List (FileRecord K)} (h : (records.map (·.relativePath)).Nodup) :
    (stableSort (fun a b => a.relativePath < b.relativePath) records).Pairwise
      fun r s => Utf8.encode r.relativePath < Utf8.encode s.relativePath := by
  have hperm := stableSort_perm (fun a b : FileRecord K => decide (a.relativePath < b.relativePath)) records
  have hne := List.pairwise_map.mp ((hperm.map (·.relativePath)).nodup_iff.mpr h)
  refine ((stableSort_ordered records).and hne).imp ?_
  rintro r s ⟨hle, hne⟩
  exact hle.resolve_right hne

theorem ne_nil_of_locate? (h : t.locate? root = some l) : root.raw.toList ≠ [] := by
  intro hempty
  rw [FileTree.locate?, if_pos hempty] at h
  cases h

/-- All files have names that are texts, and so have the directories above them. -/
def HasTextNames (t : FileTree) : Prop :=
  ∀ f ∈ t.files, ∀ n ∈ f.1, n.text?.isSome

instance (t : FileTree) : Decidable t.HasTextNames :=
  inferInstanceAs (Decidable (∀ f ∈ t.files, ∀ n ∈ f.1, n.text?.isSome))

section Discover

variable {K : Type} [Scalar K] (ht : t.WellFormed) (hroot : t.locate? root = some l)
include ht

theorem WellFormed.names_of_mem_filesBelow {names : List RawText} (h : names ∈ t.filesBelow l) :
    ∀ n ∈ names, IsEntryName n := by
  obtain ⟨-, ⟨bytes, hfile⟩, -⟩ := mem_filesBelow.mp h
  intro n hn
  exact ht.names _ hfile n (List.mem_append_right l hn)

theorem WellFormed.relativePaths_nodup (htext : t.HasTextNames) :
    ((t.filesBelow l).map fun names => "/".intercalate (names.map RawText.lossy)).Nodup := by
  have hlossy : ∀ names ∈ t.filesBelow l, names.map (RawText.ofString ∘ RawText.lossy) = names := by
    intro names hnames
    obtain ⟨-, ⟨bytes, hfile⟩, -⟩ := mem_filesBelow.mp hnames
    refine (List.map_congr_left fun n hn => ?_).trans (List.map_id names)
    exact RawText.ofString_lossy (htext _ hfile n (List.mem_append_right l hn))
  refine (filesBelow_nodup ht.nodup l).map_on ?_
  intro names hnames names' hnames' h
  have hshown : names.map RawText.lossy = names'.map RawText.lossy := by
    refine intercalate_inj ?_ ?_ ?_ ?_ h
    · exact mt List.map_eq_nil_iff.mp (mem_filesBelow.mp hnames).1
    · exact mt List.map_eq_nil_iff.mp (mem_filesBelow.mp hnames').1
    · exact List.forall_mem_map.mpr fun n hn => (ht.names_of_mem_filesBelow hnames n hn).not_mem_lossy
    · exact List.forall_mem_map.mpr fun n hn => (ht.names_of_mem_filesBelow hnames' n hn).not_mem_lossy
  rw [← hlossy names hnames, ← hlossy names' hnames', ← List.map_map, ← List.map_map, hshown]

include hroot

theorem mem_sourceRecords {r : FileRecord K} :
    r ∈ (((t.filesBelow l).map (pathBelow root)).filter t.isSource).map (.ofPath root · Scalar.zero) ↔
      ∃ above name, t.ShownBelow l above name ∧ name ∉ prunedNames.map RawText.ofString ∧ r = sourceRecord root above name := by
  have hne := ne_nil_of_locate? hroot
  constructor
  · intro hr
    obtain ⟨p, hp, rfl⟩ := List.mem_map.mp hr
    obtain ⟨hp, hsource⟩ := List.mem_filter.mp hp
    obtain ⟨names, hnames, rfl⟩ := List.mem_map.mp hp
    have hentries := ht.names_of_mem_filesBelow hnames
    obtain ⟨hsome, ⟨bytes, hfile⟩, hshown⟩ := mem_filesBelow.mp hnames
    obtain ⟨above, name, rfl⟩ := (List.eq_nil_or_concat' names).resolve_left hsome
    have hread := ht.read?_pathBelow hroot hfile
    refine ⟨above, name, ⟨bytes, hfile, ?_, (isSource_pathBelow_iff hne hentries hread).mp hsource⟩, ?_, ?_⟩
    · exact fun n hn => hshown n (List.mem_append_left _ hn)
    · exact hshown name (by simp)
    · exact ofPath_pathBelow hne hentries
  · rintro ⟨above, name, ⟨bytes, hfile, hshown, hcan⟩, hname, rfl⟩
    have hnames : above ++ [name] ∈ t.filesBelow l := by
      refine mem_filesBelow.mpr ⟨by simp, ⟨bytes, hfile⟩, ?_⟩
      rw [List.forall_mem_append, List.forall_mem_singleton]
      exact ⟨hshown, hname⟩
    have hentries := ht.names_of_mem_filesBelow hnames
    have hread := ht.read?_pathBelow hroot hfile
    refine List.mem_map.mpr ⟨_, List.mem_filter.mpr ⟨List.mem_map_of_mem hnames, ?_⟩, ofPath_pathBelow hne hentries⟩
    exact (isSource_pathBelow_iff hne hentries hread).mpr hcan

theorem relativePath_pathBelow {names : List RawText} (h : names ∈ t.filesBelow l) :
    (FileRecord.ofPath root (pathBelow root names) (Scalar.zero : K)).relativePath =
      "/".intercalate (names.map RawText.lossy) := by
  obtain ⟨above, name, rfl⟩ := (List.eq_nil_or_concat' names).resolve_left (mem_filesBelow.mp h).1
  exact congrArg FileRecord.relativePath (ofPath_pathBelow (ne_nil_of_locate? hroot) (ht.names_of_mem_filesBelow h))

theorem sourceRecords_nodup (htext : t.HasTextNames) :
    ((((t.filesBelow l).map (pathBelow root)).filter t.isSource).map
      fun p => (FileRecord.ofPath root p (Scalar.zero : K)).relativePath).Nodup := by
  refine List.Nodup.sublist (List.filter_sublist.map _) ?_
  rw [List.map_map]
  convert ht.relativePaths_nodup (l := l) htext using 1
  exact List.map_congr_left fun names hnames => relativePath_pathBelow ht hroot hnames

theorem pathsBelow_nodup : ((t.filesBelow l).map (pathBelow root)).Nodup := by
  refine (filesBelow_nodup ht.nodup l).map_on ?_
  intro names hnames names' hnames' h
  have hne := ne_nil_of_locate? hroot
  have hcomponents := congrArg Path.components h
  rw [components_pathBelow hne (ht.names_of_mem_filesBelow hnames),
    components_pathBelow hne (ht.names_of_mem_filesBelow hnames'), List.append_cancel_left_eq] at hcomponents
  exact List.map_injective_iff.mpr (fun _ _ => Path.Component.name.inj) hcomponents

/-- A file has one place: the record of another file does not lead there. -/
theorem ShownBelow.locate? {above : List RawText} {name : RawText} (h : t.ShownBelow l above name) :
    t.locate? (sourceRecord (K := K) root above name).absolutePath = some (l ++ (above ++ [name])) := by
  obtain ⟨bytes, hfile, -⟩ := h
  have hplace : (l ++ (above ++ [name] ++ []), bytes) ∈ t.files := by rwa [List.append_nil]
  exact ht.locate?_pathBelow hroot hplace

end Discover

/-- The records of the source files below a place: each stands for one shown file whose own name is not pruned, they
increase by the bytes of their relative paths, strictly where no two names are shown alike, and they lead to every such
file, once, and to no other. -/
structure IsListing {K : Type} [Scalar K] (t : FileTree) (root : Path) (l : Location) (records : List (FileRecord K)) :
    Prop where
  sound : ∀ r ∈ records, ∃ above name, t.ShownBelow l above name ∧ name ∉ prunedNames.map RawText.ofString ∧
    r = sourceRecord root above name
  distinct : (records.map (·.absolutePath)).Nodup
  ordered : records.Pairwise fun r s =>
    Utf8.encode r.relativePath < Utf8.encode s.relativePath ∨ r.relativePath = s.relativePath
  strict : t.HasTextNames → records.Pairwise fun r s => Utf8.encode r.relativePath < Utf8.encode s.relativePath
  complete : ∀ above name, t.ShownBelow l above name → name ∉ prunedNames.map RawText.ofString →
    ∃! r, r ∈ records ∧ t.locate? r.absolutePath = some (l ++ (above ++ [name]))
  skips : ∀ above name, name ∈ prunedNames.map RawText.ofString →
    ∀ r ∈ records, t.locate? r.absolutePath ≠ some (l ++ (above ++ [name]))

/-- A search below a directory lists exactly the files that a family can read, no pruned directory hides, and that do
not themselves have a pruned name. -/
theorem discover_isListing {K : Type} [Scalar K] (ht : t.WellFormed) (hroot : t.locate? root = some l)
    (hdir : t.hasDirectory l = true) :
    ∃ records : List (FileRecord K), t.discover root = .ok records ∧ t.IsListing root l records := by
  obtain ⟨found, hfound⟩ : ∃ found : List (FileRecord K), found =
    (((t.filesBelow l).map (pathBelow root)).filter t.isSource).map (.ofPath root · Scalar.zero) := ⟨_, rfl⟩
  have hmem : ∀ r, r ∈ stableSort (fun a b => a.relativePath < b.relativePath) found ↔
      ∃ above name, t.ShownBelow l above name ∧ name ∉ prunedNames.map RawText.ofString ∧ r = sourceRecord root above name := by
    intro r
    rw [(stableSort_perm _ found).mem_iff, hfound]
    exact mem_sourceRecords ht hroot
  -- a record of another file leads to the place of that file
  have hplace : ∀ r, r ∈ stableSort (fun a b => a.relativePath < b.relativePath) found → ∀ above name,
      t.locate? r.absolutePath = some (l ++ (above ++ [name])) →
        name ∉ prunedNames.map RawText.ofString ∧ r = sourceRecord root above name := by
    intro r hr above name hr'
    obtain ⟨above', name', hshown, hname, rfl⟩ := (hmem r).mp hr
    rw [hshown.locate? ht hroot, Option.some.injEq, List.append_cancel_left_eq] at hr'
    obtain ⟨rfl, rfl⟩ := List.append_singleton_inj.mp hr'
    exact ⟨hname, rfl⟩
  refine ⟨stableSort (fun a b => a.relativePath < b.relativePath) found, ?_, ?_, ?_, stableSort_ordered found, ?_, ?_, ?_⟩
  · rw [discover, hroot]
    simp [hdir, hfound]
  · exact fun r hr => (hmem r).mp hr
  · rw [((stableSort_perm _ found).map _).nodup_iff, hfound, List.map_map]
    exact ((pathsBelow_nodup ht hroot).sublist List.filter_sublist).map_on fun p _ q _ h => h
  · intro htext
    refine stableSort_strict ?_
    rw [hfound, List.map_map]
    exact sourceRecords_nodup ht hroot htext
  · intro above name hshown hname
    refine ⟨sourceRecord root above name, ⟨(hmem _).mpr ⟨above, name, hshown, hname, rfl⟩, ?_⟩, ?_⟩
    · exact hshown.locate? ht hroot
    · exact fun r hr => (hplace r hr.1 above name hr.2).2
  · exact fun above name hname r hr hr' => (hplace r hr above name hr').1 hname

/-- A project with a hidden directory, a script without an extension, and one that is named like a hidden directory. -/
def scriptProject : FileTree where
  files := [
    (["p", "build"], Utf8.encode "#!/usr/bin/env python3\n"),
    (["p", "tool"], Utf8.encode "#!/usr/bin/env node\n"),
    (["p", "src", "é.ts"], []),
    (["p", "src", "z.py"], []),
    (["p", "dist", "z.py"], []),
    (["p", "notes.txt"], [])]
  directories := [["p"], ["p", "src"], ["p", "dist"]]

theorem discover_isListing_of_scriptProject : scriptProject.WellFormed ∧ scriptProject.locate? ⟨"/p"⟩ = some (["p"] : Location) ∧
    scriptProject.hasDirectory ["p"] = true ∧
    ∃ records : List (FileRecord ℚ), scriptProject.discover ⟨"/p"⟩ = .ok records ∧
      scriptProject.IsListing ⟨"/p"⟩ ["p"] records := by
  have ht : scriptProject.WellFormed := by
    constructor
    · decide
    · decide
    · decide
    · decide
  exact ⟨ht, by decide, by decide, discover_isListing ht (by decide) (by decide)⟩

/-- A script whose own name is that of a pruned directory is not found, although no directory hides it. -/
theorem discover_misses_script_named_build : scriptProject.ShownBelow ["p"] [] "build" ∧
    ((scriptProject.discover ⟨"/p"⟩ : Except Failure (List (FileRecord ℚ))).toOption.map
      fun records => records.map (·.relativePath)) = some ["src/z.py", "src/é.ts", "tool"] := by
  refine ⟨⟨_, .head _, by simp, ?_⟩, ?_⟩
  · exact .inr ⟨by decide, "#!/usr/bin/env python3\n".toList, by decide +kernel, by decide⟩
  · decide +kernel

end FileTree

end ModuleGraph
