import ModuleGraph.Proofs.SharedSession
import Mathlib.Data.List.Perm.Basic

namespace ModuleGraph

open Extraction

namespace Extraction

variable {t : FileTree} {paths : List Path} {p : Path}

/-- The path can be read as it is spelled, or none of some paths with its components can be read. -/
def ReadsAsSpelledIn (t : FileTree) (paths : List Path) (p : Path) : Prop :=
  (ofFile t p).keep = true ∨ ∀ q ∈ paths, q.components = p.components → (ofFile t q).keep = false

theorem ReadAmong.eq_of_readsAsSpelledIn {d : Declarations} (h : ReadAmong t paths p.components d)
    (hp : ReadsAsSpelledIn t paths p) : d = (ofFile t p).declarations := by
  rcases hp with hp | hp
  · exact h.readAs.eq_own hp
  · obtain ⟨q, hq, hc, hkeep, -⟩ := h
    rw [hp q hq hc] at hkeep
    contradiction

theorem exists_spelling_of_not_readsAsSpelledIn (h : ¬ReadsAsSpelledIn t paths p) :
    (ofFile t p).keep = false ∧ ∃ q ∈ paths, q.components = p.components ∧ (ofFile t q).keep = true := by
  simpa only [ReadsAsSpelledIn, not_or, Bool.not_eq_true, not_forall, Bool.not_eq_false, exists_prop] using h

/-- Whatever is read between a path that can be read and another spelling of it, the one stands for the other. -/
theorem after_cons_of_components {q : Path} (hc : q.components = p.components) (hq : (ofFile t q).keep = true)
    (earlier : List Path) : after t (q :: earlier) p = (ofFile t q).declarations := by
  simp [after, recorded?, hc, hq]

end Extraction

namespace Graph

variable {K : Type} {t : FileTree} {files : List (FileRecord K)} {ds : List Declarations}

/-- What the calls of a build may return for its files. Each file has one call over a new session, and the steps of
the calls come between each other in any order. -/
def MayExtract (t : FileTree) (files : List (FileRecord K)) (ds : List Declarations) : Prop :=
  ds.length = files.length ∧ ∃ pool : Pool, pool.Reachable t ∧
    pool.calls.Perm (List.zipWith (fun f d => .returned f.absolutePath d) files ds)

/-- The graphs that a build of some files may give, whichever order the files are read in. -/
def MayBuild [Scalar K] (t : FileTree) (files : List (FileRecord K)) (options : BuildOptions K) (g : Graph K) : Prop :=
  ∃ ds, MayExtract t files ds ∧ g = ofDeclarations t files options ds

/-- The files of a build with the declarations that were taken for them and the imports that land. -/
def parsedWith (t : FileTree) (files : List (FileRecord K)) (options : ResolveOptions) (ds : List Declarations) :
    List (Parsed K) :=
  List.zipWith (fun f d => ⟨f, d, resolveFile t (.ofOptions t options) (.ofPaths (files.map (·.absolutePath)))
    f.absolutePath d⟩) files ds

theorem ofDeclarations_eq_assemble [Scalar K] (options : BuildOptions K) :
    ofDeclarations t files options ds = assemble options (parsedWith t files options.resolve ds) := rfl

theorem parsedWith_getElem? (options : ResolveOptions) {i : Nat} {f : FileRecord K} {d : Declarations}
    (hf : files[i]? = some f) (hd : ds[i]? = some d) :
    (parsedWith t files options ds)[i]? = some ⟨f, d, resolveFile t (.ofOptions t options)
      (.ofPaths (files.map (·.absolutePath))) f.absolutePath d⟩ := by
  rw [parsedWith, List.getElem?_zipWith, hf, hd]

theorem parsedWith_map_file (options : ResolveOptions) (h : ds.length = files.length) :
    (parsedWith t files options ds).map (·.file) = files := by
  rw [parsedWith, List.map_zipWith, ← List.map_uncurry_zip_eq_zipWith]
  exact List.map_fst_zip (Nat.le_of_eq h.symm)

theorem parsedFiles_eq_parsedWith (t : FileTree) (files : List (FileRecord K)) (options : ResolveOptions) :
    parsedFiles t files options = parsedWith t files options (extractAll t {} files) :=
  parseFiles_eq_zipWith t _ _ {} files

theorem length_extractAll (s : Session) : (extractAll t s files).length = files.length := by
  induction files generalizing s with
  | nil => rfl
  | cons f files ih => rw [extractAll, List.length_cons, List.length_cons, ih]

theorem extractAll_getElem? {earlier : List Path} {s : Session} (h : s.Records t earlier) (i : Nat) :
    (extractAll t s files)[i]? = files[i]?.map fun f =>
      after t (earlier ++ (files.take i).map (·.absolutePath)) f.absolutePath := by
  induction files generalizing earlier s i with
  | nil => rfl
  | cons f files ih =>
    obtain ⟨hd, hs⟩ := Session.extract_records h f.absolutePath
    cases i with
    | zero => simp [extractAll, hd]
    | succ i => simpa [extractAll] using ih hs i

theorem reachable_extractAll (files : List (FileRecord K)) {s : Session} {calls : List Call} (h : Pool.Reachable t ⟨s, calls⟩) :
    ∃ s', Pool.Reachable t ⟨s', calls ++
      List.zipWith (fun f d => .returned f.absolutePath d) files (extractAll t s files)⟩ := by
  induction files generalizing s calls with
  | nil => exact ⟨s, by simpa using h⟩
  | cons f files ih =>
    obtain ⟨s', hs'⟩ := ih (h.call f.absolutePath)
    exact ⟨s', by simpa [extractAll] using hs'⟩

theorem mayExtract_extractAll (t : FileTree) (files : List (FileRecord K)) :
    MayExtract t files (extractAll t {} files) := by
  obtain ⟨s, hs⟩ := reachable_extractAll files (Pool.Reachable.idle (t := t))
  exact ⟨length_extractAll {}, _, hs, .refl _⟩

theorem mayBuild_build [Scalar K] (t : FileTree) (files : List (FileRecord K)) (options : BuildOptions K) :
    MayBuild t files options (build t files options) :=
  ⟨_, mayExtract_extractAll t files, buildIn_eq_ofDeclarations t {} files options⟩

theorem MayExtract.own_or_among (h : MayExtract t files ds) {i : Nat} {f : FileRecord K} {d : Declarations}
    (hf : files[i]? = some f) (hd : ds[i]? = some d) :
    d = (ofFile t f.absolutePath).declarations ∨
      ReadAmong t (files.map (·.absolutePath)) f.absolutePath.components d := by
  obtain ⟨hlength, pool, hpool, hcalls⟩ := h
  have hpaths : pool.paths ⊆ files.map (·.absolutePath) := by
    intro p hp
    have hp' := (hcalls.map Call.path).mem_iff.mp hp
    rw [List.map_zipWith] at hp'
    obtain ⟨j, hj⟩ := List.mem_iff_getElem?.mp hp'
    rw [List.getElem?_zipWith] at hj
    cases hfj : files[j]? with
    | none => simp [hfj] at hj
    | some f =>
      cases hdj : ds[j]? with
      | none => simp [hfj, hdj] at hj
      | some d =>
        have hpath : f.absolutePath = p := by simpa [hfj, hdj, Call.path] using hj
        exact hpath ▸ List.mem_map_of_mem (List.mem_of_getElem? hfj)
  have hcall : .returned f.absolutePath d ∈ pool.calls := by
    refine hcalls.mem_iff.mpr (List.mem_iff_getElem?.mpr ⟨i, ?_⟩)
    rw [List.getElem?_zipWith, hf, hd]
  exact (hpool.sound.2 _ hcall).imp_right (ReadAmong.mono hpaths)

theorem MayExtract.getElem? (h : MayExtract t files ds) {i : Nat} {f : FileRecord K} (hf : files[i]? = some f) :
    ∃ d, ds[i]? = some d := by
  have hi : i < ds.length := h.1 ▸ (List.getElem?_eq_some_iff.mp hf).1
  exact ⟨_, List.getElem?_eq_getElem hi⟩

theorem MayExtract.eq_own (h : MayExtract t files ds) {i : Nat} {f : FileRecord K} {d : Declarations}
    (hf : files[i]? = some f) (hd : ds[i]? = some d)
    (hread : ReadsAsSpelledIn t (files.map (·.absolutePath)) f.absolutePath) :
    d = (ofFile t f.absolutePath).declarations := by
  rcases h.own_or_among hf hd with he | he
  · exact he
  · exact he.eq_of_readsAsSpelledIn hread

theorem mayExtract_of_perm {files' : List (FileRecord K)} (hperm : files.Perm files') :
    ∃ ds, MayExtract t files ds ∧ ∀ (i : Nat) (f : FileRecord K) (d : Declarations), files[i]? = some f → ds[i]? = some d →
      (f, d) ∈ files'.zip (extractAll t {} files') := by
  have hzip : List.Forall₂ (fun f (x : FileRecord K × Declarations) => f = x.1) files'
      (files'.zip (extractAll t {} files')) := by
    rw [← List.forall₂_map_right_iff (R := fun f g => f = g), List.map_fst_zip (Nat.le_of_eq (length_extractAll {}).symm),
      List.forall₂_eq_eq_eq]
  -- the pairs of the other order, arranged like the files
  obtain ⟨pairs, hfst, hpairs⟩ := List.perm_comp_forall₂ hperm hzip
  rw [← List.forall₂_map_right_iff (R := fun f g => f = g), List.forall₂_eq_eq_eq] at hfst
  obtain ⟨s, hs⟩ := reachable_extractAll files' (Pool.Reachable.idle (t := t))
  refine ⟨pairs.map Prod.snd, ⟨by rw [hfst, List.length_map, List.length_map], _, hs, ?_⟩, fun i f d hf hd => ?_⟩
  · rw [hfst, List.nil_append, ← List.map_uncurry_zip_eq_zipWith, List.zipWith_map, List.zipWith_self]
    exact (hpairs.map _).symm
  · rw [hfst, List.getElem?_map] at hf
    rw [List.getElem?_map] at hd
    obtain ⟨x, hx, rfl⟩ := Option.map_eq_some_iff.mp hf
    rw [hx] at hd
    rw [← Option.some.inj hd]
    exact hpairs.mem_iff.mp (List.mem_of_getElem? hx)

/-- A file that cannot be read may get the declarations of any file of the list that is another spelling of it. -/
theorem exists_mayExtract_of_spelling {i : Nat} {f : FileRecord K} (hf : files[i]? = some f) {q : Path}
    (hq : q ∈ files.map (·.absolutePath)) (hc : q.components = f.absolutePath.components)
    (hkeep : (ofFile t q).keep = true) :
    ∃ ds, MayExtract t files ds ∧ ds[i]? = some (ofFile t q).declarations := by
  obtain ⟨g, hg, rfl⟩ := List.mem_map.mp hq
  obtain ⟨k, hk, rfl⟩ := List.getElem_of_mem hg
  -- the other spelling is read before all other files
  obtain ⟨ds, hds, hpairs⟩ := mayExtract_of_perm (t := t) (List.getElem_cons_eraseIdx_perm hk).symm
  obtain ⟨d, hd⟩ := hds.getElem? hf
  refine ⟨ds, hds, ?_⟩
  obtain ⟨j, hj⟩ := List.mem_iff_getElem?.mp (hpairs i f d hf hd)
  rw [List.getElem?_zip_eq_some, extractAll_getElem? (Session.records_empty t)] at hj
  obtain ⟨hfj, hdj⟩ := hj
  rw [hfj, Option.map_some] at hdj
  have hreturned : after t (((files[k] :: files.eraseIdx k).take j).map (·.absolutePath)) f.absolutePath = d :=
    Option.some.inj hdj
  rw [hd, ← hreturned]
  cases j with
  | zero =>
    have hself : files[k] = f := by simpa using hfj
    rw [← hself]
    exact congrArg some rfl
  | succ j =>
    exact congrArg some (after_cons_of_components hc hkeep _)

end Graph

end ModuleGraph
