import ModuleGraph.Graph.Build
import Mathlib.Data.List.Basic

namespace ModuleGraph

/-- The place that a component leads to, whatever stands there. -/
def Location.enter (l : Location) : Path.Component → Location
  | .root => []
  | .here => l
  | .up => l.dropLast
  | .name n => l ++ [n]

theorem entryAt?_isSome_iff {t : FileTree} {m : Location} :
    (t.entryAt? m).isSome = true ↔ t.hasDirectory m = true ∨ (t.bytesAt? m).isSome = true := by
  unfold FileTree.entryAt?
  cases t.hasDirectory m <;> simp

theorem follow?_eq_some_iff {t : FileTree} {s m : Location} {piece : List UInt8} :
    t.follow? s piece = some m ↔ t.hasDirectory s = true ∧
      m = (Path.Component.ofPiece? piece).elim s (Location.enter s) ∧
      ∀ n, Path.Component.ofPiece? piece = some (.name n) → (t.entryAt? m).isSome = true := by
  unfold FileTree.follow? Path.Component.ofPiece?
  cases t.hasDirectory s with
  | false => simp
  | true =>
    by_cases hdot : piece = [] ∨ piece = [Path.dot]
    · simpa [hdot] using ⟨Eq.symm, Eq.symm⟩
    · by_cases hup : piece = [Path.dot, Path.dot]
      · simpa [hup, Location.enter] using ⟨Eq.symm, Eq.symm⟩
      · simp only [Bool.not_true, Bool.false_eq_true, if_false, hdot, hup, Option.elim_some, Location.enter, true_and]
        constructor
        · intro h
          obtain ⟨hentry, hm⟩ := Option.ite_none_right_eq_some.mp h
          cases hm
          exact ⟨rfl, fun _ _ => hentry⟩
        · rintro ⟨rfl, hentry⟩
          rw [if_pos (hentry _ rfl)]

theorem foldlM_follow?_place {t : FileTree} {pieces : List (List UInt8)} {l m : Location}
    (h : pieces.foldlM t.follow? l = some m) :
    m = (pieces.filterMap Path.Component.ofPiece?).foldl Location.enter l := by
  induction pieces generalizing l with
  | nil => simpa using h.symm
  | cons piece pieces ih =>
    rw [List.foldlM_cons] at h
    obtain ⟨next, hn, h⟩ := Option.bind_eq_some_iff.mp h
    obtain ⟨-, hplace, -⟩ := follow?_eq_some_iff.mp hn
    rw [ih h]
    cases hc : Path.Component.ofPiece? piece with
    | none => simp_all
    | some c => simp_all

theorem locate?_place {t : FileTree} {p : Path} {l : Location} (h : t.locate? p = some l) :
    l = p.components.foldl Location.enter t.workingDirectory := by
  unfold FileTree.locate? at h
  split at h
  next => simp at h
  next =>
    have hplace := foldlM_follow?_place h
    simp only [Path.components, List.foldl_append]
    by_cases ha : p.isAbsolute
    · simpa [ha, Location.enter] using hplace
    · by_cases hd : (Text.pieces (· == Path.slash) p.raw.toList).head? = some [Path.dot]
      · simpa [ha, hd, Location.enter] using hplace
      · simpa [ha, hd] using hplace

theorem locate?_eq_of_components {t : FileTree} {p q : Path} {l m : Location}
    (h : p.components = q.components) (hp : t.locate? p = some l) (hq : t.locate? q = some m) :
    l = m := by
  rw [locate?_place hp, locate?_place hq, h]

theorem extension?_eq_of_components {p q : Path} (h : p.components = q.components) :
    p.extension? = q.extension? := by
  simp [Path.extension?, Path.fileName?, h]

theorem read?_eq_some_iff {t : FileTree} {p : Path} {bytes : List UInt8} :
    t.read? p = some bytes ↔ ∃ l, t.locate? p = some l ∧ t.entryAt? l = some (.file bytes) := by
  unfold FileTree.read? FileTree.find?
  cases hl : t.locate? p with
  | none => simp
  | some l =>
    cases he : t.entryAt? l with
    | none => simp [he]
    | some e => cases e <;> simp [he]

theorem read?_eq_of_components {t : FileTree} {p q : Path} {bytes bytes' : List UInt8}
    (h : p.components = q.components) (hp : t.read? p = some bytes) (hq : t.read? q = some bytes') :
    bytes = bytes' := by
  obtain ⟨l, hl, he⟩ := read?_eq_some_iff.mp hp
  obtain ⟨m, hm, hf⟩ := read?_eq_some_iff.mp hq
  have hlm := locate?_eq_of_components h hl hm
  subst m
  simpa [he] using hf

theorem isFile_iff {t : FileTree} {p : Path} :
    t.isFile p = true ↔ ∃ m, t.locate? p = some m ∧ t.hasDirectory m = false ∧ (t.bytesAt? m).isSome := by
  unfold FileTree.isFile FileTree.find?
  cases t.locate? p with
  | none => simp
  | some m => cases hd : t.hasDirectory m <;> cases hb : t.bytesAt? m <;> simp [FileTree.entryAt?, hd, hb]

namespace Extraction

theorem ofFile_keep_iff {t : FileTree} {p : Path} :
    (ofFile t p).keep = true ↔
      (p.extension?.any fun e => (Family.ofExtension? e).isNone) = false ∧
        ∃ bytes, t.read? p = some bytes := by
  unfold ofFile
  split
  next h => simp [h]
  next h =>
    cases hr : t.read? p with
    | none => simp
    | some bytes => simpa using h

theorem ofFile_of_read? {t : FileTree} {p : Path} {bytes : List UInt8}
    (hx : (p.extension?.any fun e => (Family.ofExtension? e).isNone) = false)
    (hr : t.read? p = some bytes) : ofFile t p = ⟨ofBytes p.extension? bytes, true⟩ := by
  simp [ofFile, hx, hr]

theorem ofFile_eq_of_components {t : FileTree} {p q : Path} (h : p.components = q.components)
    (hp : (ofFile t p).keep = true) (hq : (ofFile t q).keep = true) : ofFile t p = ofFile t q := by
  obtain ⟨hx, bytes, hr⟩ := ofFile_keep_iff.mp hp
  obtain ⟨hy, bytes', hs⟩ := ofFile_keep_iff.mp hq
  rw [ofFile_of_read? hx hr, ofFile_of_read? hy hs, read?_eq_of_components h hr hs, extension?_eq_of_components h]

/-- What is remembered for some components after paths have been read one after the other: the
declarations of the first one with these components that could be read. -/
def recorded? (t : FileTree) (earlier : List Path) (cs : List Path.Component) : Option Declarations :=
  (earlier.find? fun q => q.components = cs && (ofFile t q).keep).map fun q => (ofFile t q).declarations

/-- The declarations of a path, read after some earlier ones: a path with the same components that could
be read before stands for it. -/
def after (t : FileTree) (earlier : List Path) (p : Path) : Declarations :=
  (recorded? t earlier p.components).getD (ofFile t p).declarations

/-- Earlier paths do not matter to a path that can be read itself, nor to one that is spelled in no other
way. -/
theorem after_eq_own {t : FileTree} {earlier : List Path} {p : Path}
    (h : (ofFile t p).keep = true ∨ ∀ q ∈ earlier, q.components ≠ p.components) :
    after t earlier p = (ofFile t p).declarations := by
  unfold after recorded?
  cases hf : earlier.find? fun q => q.components = p.components && (ofFile t q).keep with
  | none => rfl
  | some q =>
    have hq := List.find?_some hf
    simp only [Bool.and_eq_true, decide_eq_true_eq] at hq
    rcases h with hk | hne
    · simp [ofFile_eq_of_components hq.1 hq.2 hk]
    · exact absurd hq.1 (hne q (List.mem_of_find?_eq_some hf))

theorem recorded?_append_singleton (t : FileTree) (earlier : List Path) (p : Path)
    (cs : List Path.Component) :
    recorded? t (earlier ++ [p]) cs = (recorded? t earlier cs).or
      (if p.components = cs ∧ (ofFile t p).keep then some (ofFile t p).declarations else none) := by
  unfold recorded?
  rw [List.find?_append]
  cases earlier.find? fun q => q.components = cs && (ofFile t q).keep with
  | some q => rfl
  | none => by_cases h : p.components = cs ∧ (ofFile t p).keep <;> simp [h]

end Extraction

namespace Session

open Extraction

theorem lookup_filter_ne {entries : List (List Path.Component × Declarations)}
    {cs ds : List Path.Component} (h : ds ≠ cs) :
    (entries.filter fun e => e.1 ≠ cs).lookup ds = entries.lookup ds := by
  induction entries with
  | nil => rfl
  | cons e entries ih =>
    obtain ⟨key, d⟩ := e
    by_cases hk : key = cs
    · subst key
      have hb : (ds == cs) = false := beq_eq_false_iff_ne.mpr h
      simpa [List.lookup_cons, hb] using ih
    · have hf : ((key, d) :: entries).filter (fun e => e.1 ≠ cs) =
          (key, d) :: entries.filter (fun e => e.1 ≠ cs) := by simp [hk]
      rw [hf, List.lookup_cons, List.lookup_cons, ih]

theorem lookup_insert (s : Session) (p : Path) (d : Declarations) (cs : List Path.Component) :
    (s.insert p d).entries.lookup cs = if p.components = cs then some d else s.entries.lookup cs := by
  by_cases h : p.components = cs
  · simp [insert, h]
  · have hne : cs ≠ p.components := fun he => h he.symm
    have hb : (cs == p.components) = false := beq_eq_false_iff_ne.mpr hne
    simp only [insert, List.lookup_cons, hb, lookup_filter_ne hne, h, if_false]

def Records (t : FileTree) (earlier : List Path) (s : Session) : Prop :=
  ∀ cs, s.entries.lookup cs = recorded? t earlier cs

theorem records_empty (t : FileTree) : Records t [] {} := fun _ => rfl

theorem extract_records {t : FileTree} {earlier : List Path} {s : Session} (h : Records t earlier s)
    (p : Path) :
    (s.extract t p).1 = after t earlier p ∧ Records t (earlier ++ [p]) (s.extract t p).2 := by
  have hl : s.lookup? p = recorded? t earlier p.components := h p.components
  unfold extract after
  rw [hl]
  cases hr : recorded? t earlier p.components with
  | some d =>
    refine ⟨rfl, fun cs => ?_⟩
    rw [recorded?_append_singleton, h cs]
    by_cases hc : p.components = cs
    · subst cs; simp [hr]
    · simp [hc]
  | none =>
    refine ⟨rfl, fun cs => ?_⟩
    rw [recorded?_append_singleton, ← h cs]
    simp only [remember]
    split
    next hk =>
      rw [lookup_insert]
      by_cases hc : p.components = cs
      · subst cs
        simp [hk, h p.components, hr]
      · simp [hc]
    next hk => simp [hk]

end Session

namespace Graph

variable {K : Type}

def parsedAfter (t : FileTree) (resolver : Resolver) (index : NodeIndex) (earlier : List Path)
    (f : FileRecord K) : Parsed K :=
  let d := Extraction.after t earlier f.absolutePath
  ⟨f, d, resolveFile t resolver index f.absolutePath d⟩

theorem parseFiles_getElem? (t : FileTree) (resolver : Resolver) (index : NodeIndex)
    {earlier : List Path} {s : Session} (h : s.Records t earlier) (files : List (FileRecord K)) (i : Nat) :
    (parseFiles t resolver index s files).1[i]? = files[i]?.map
      (parsedAfter t resolver index (earlier ++ (files.take i).map (·.absolutePath))) := by
  induction files generalizing earlier s i with
  | nil => simp [parseFiles]
  | cons f files ih =>
    obtain ⟨hd, hs⟩ := Session.extract_records h f.absolutePath
    cases i with
    | zero => simp [parseFiles, parsedAfter, hd]
    | succ i => simpa [parseFiles] using ih hs i

/-- The files of a build with their declarations and landed imports. -/
def parsedFiles (t : FileTree) (files : List (FileRecord K)) (options : ResolveOptions) : List (Parsed K) :=
  (parseFiles t (.ofOptions t options) (.ofPaths (files.map (·.absolutePath))) {} files).1

theorem parsedFiles_getElem? (t : FileTree) (files : List (FileRecord K)) (options : ResolveOptions)
    (i : Nat) :
    (parsedFiles t files options)[i]? = files[i]?.map
      (parsedAfter t (.ofOptions t options) (.ofPaths (files.map (·.absolutePath)))
        ((files.take i).map (·.absolutePath))) := by
  exact parseFiles_getElem? t (.ofOptions t options) (.ofPaths (files.map (·.absolutePath)))
    (Session.records_empty t) files i

theorem parsedFiles_map_file (t : FileTree) (files : List (FileRecord K)) (options : ResolveOptions) :
    (parsedFiles t files options).map (·.file) = files := by
  apply List.ext_getElem?
  intro i
  simp [parsedFiles_getElem?, parsedAfter, Function.comp_def]

theorem build_eq_assemble [Scalar K] (t : FileTree) (files : List (FileRecord K))
    (options : BuildOptions K) :
    build t files options = assemble options (parsedFiles t files options.resolve) := rfl

end Graph

end ModuleGraph
