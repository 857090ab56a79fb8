import ModuleGraph.Graph.Draft
import Mathlib.Data.List.Perm.Basic

namespace ModuleGraph

namespace Importer

/-- A specifier resolves to a file of the set, and that file has the number `target`. -/
def Reaches (importer : Importer) (spec : String) (target : Nat) : Prop :=
  ∃ p, importer.resolver.resolveAs? importer.tree importer.family importer.path spec = some p ∧
    importer.index.lookup p.clean = some target

/-- The module of a from-import is resolved to the file that stands for its package. -/
def ImportsPackage (importer : Importer) (i : Import) : Prop :=
  ∃ p, importer.resolver.resolveAs? importer.tree importer.family importer.path i.source = some p ∧
    p.stem? = some "__init__"

/-- A name of a from-import is that of a submodule in the set. -/
def NamesSubmodule (importer : Importer) (i : Import) (name : String) : Prop :=
  ∃ target, importer.Reaches (submodule i.source name) target

/-- An import of one name alone, from the submodule of that name. -/
def TakesSubmodule (importer : Importer) (i : Import) (r : ResolvedImport) : Prop :=
  ∃ name, r.names = [name] ∧ importer.Reaches (submodule i.source name) r.target

variable {importer : Importer} {i : Import} {spec name : String} {target : Nat}

theorem land?_eq_some_iff : importer.land? spec = some target ↔ importer.Reaches spec target := by
  simp only [land?, Option.bind_eq_some_iff]
  rfl

theorem isSome_land?_iff : (importer.land? spec).isSome = true ↔ ∃ target, importer.Reaches spec target := by
  simp only [Option.isSome_iff_exists, land?_eq_some_iff]

theorem any_isPackageInit_iff :
    (importer.resolve? i.source).any isPackageInit = true ↔ importer.ImportsPackage i := by
  simp [Option.any_eq_true, resolve?, isPackageInit, Family.indexStem, ImportsPackage]

instance (importer : Importer) (i : Import) : Decidable (importer.ImportsPackage i) :=
  decidable_of_iff _ any_isPackageInit_iff

instance (importer : Importer) (i : Import) (name : String) : Decidable (importer.NamesSubmodule i name) :=
  decidable_of_iff _ isSome_land?_iff

/-- The imports that a from-import stands for. When its module is in the set, no name is lost or taken twice: the
submodules of a package are imported one by one, and the module itself with all other names. When it is not, only
submodules are imported. -/
structure SharesOut (importer : Importer) (i : Import) (imports : List ResolvedImport) : Prop where
  flag : ∀ r ∈ imports, r.isTypeOnly = i.isTypeOnly
  count : ∀ m, importer.Reaches i.source m →
    ∀ name, (imports.flatMap (·.names)).count name = i.names.count name
  inside : ∀ m, importer.Reaches i.source m → ∃ alone rest,
    imports = alone ++ (if rest ≠ [] ∨ i.names = [] then [⟨m, rest, i.isTypeOnly⟩] else []) ∧
    (∀ r ∈ alone, importer.TakesSubmodule i r) ∧
    alone.flatMap (·.names) = i.names.filter (fun name => importer.ImportsPackage i ∧ importer.NamesSubmodule i name) ∧
    rest = i.names.filter fun name => ¬(importer.ImportsPackage i ∧ importer.NamesSubmodule i name)
  outside : (∀ m, ¬importer.Reaches i.source m) →
    (∀ r ∈ imports, importer.TakesSubmodule i r) ∧
    imports.flatMap (·.names) = i.names.filter (importer.NamesSubmodule i ·)

def submodule? (importer : Importer) (i : Import) (name : String) : Option Nat :=
  if (importer.land? i.source).isNone || importer.ImportsPackage i then importer.land? (submodule i.source name)
  else none

def rest (importer : Importer) (i : Import) : List String :=
  i.names.filter fun name => (importer.submodule? i name).isNone

def named (importer : Importer) (i : Import) : List ResolvedImport :=
  i.names.filterMap fun name => (importer.submodule? i name).map fun target => ⟨target, [name], i.isTypeOnly⟩

theorem submodules_eq (importer : Importer) (i : Import) :
    importer.submodules i = i.names.map fun name => (name, importer.submodule? i name) := by
  have hlooked : (importer.resolve? i.source).any isPackageInit = decide (importer.ImportsPackage i) := by
    rw [Bool.eq_iff_iff, any_isPackageInit_iff, decide_eq_true_eq]
  simp only [submodules, submodule?, hlooked]
  rfl

theorem landFrom_eq (importer : Importer) (i : Import) :
    importer.landFrom i = importer.named i ++
      (importer.land? i.source).toList.flatMap fun m =>
        if importer.rest i ≠ [] ∨ i.names = [] then [⟨m, importer.rest i, i.isTypeOnly⟩] else [] := by
  have hrest : ((importer.submodules i).filter fun f => f.2.isNone).map (·.1) = importer.rest i := by
    rw [submodules_eq, List.filter_map, List.map_map]
    exact List.map_id _
  have hnamed : (importer.submodules i).filterMap (fun f =>
      f.2.map fun target => (⟨target, [f.1], i.isTypeOnly⟩ : ResolvedImport)) = importer.named i := by
    rw [submodules_eq, List.filterMap_map]
    rfl
  simp only [landFrom, hrest, hnamed]
  cases importer.land? i.source with
  | none => rfl
  | some m =>
    by_cases hr : importer.rest i = [] <;> by_cases hn : i.names = [] <;> simp [hr, hn]

theorem submodule?_eq_some_iff :
    importer.submodule? i name = some target ↔
      ((∀ m, ¬importer.Reaches i.source m) ∨ importer.ImportsPackage i) ∧
        importer.Reaches (submodule i.source name) target := by
  have hnone : (importer.land? i.source).isNone = true ↔ ∀ m, ¬importer.Reaches i.source m := by
    rw [Option.isNone_iff_eq_none, Option.eq_none_iff_forall_ne_some]
    exact forall_congr' fun m => land?_eq_some_iff.not
  rw [submodule?, Option.ite_none_right_eq_some, land?_eq_some_iff, Bool.or_eq_true, decide_eq_true_eq, hnone]

theorem isSome_submodule?_iff :
    (importer.submodule? i name).isSome = true ↔
      ((∀ m, ¬importer.Reaches i.source m) ∨ importer.ImportsPackage i) ∧ importer.NamesSubmodule i name := by
  simp only [Option.isSome_iff_exists, submodule?_eq_some_iff, exists_and_left, NamesSubmodule]

theorem takesSubmodule_of_mem_named {r : ResolvedImport} (h : r ∈ importer.named i) :
    importer.TakesSubmodule i r ∧ r.isTypeOnly = i.isTypeOnly := by
  obtain ⟨name, -, hr⟩ := List.mem_filterMap.mp h
  obtain ⟨target, htarget, rfl⟩ := Option.map_eq_some_iff.mp hr
  exact ⟨⟨name, rfl, (submodule?_eq_some_iff.mp htarget).2⟩, rfl⟩

theorem names_named (importer : Importer) (i : Import) :
    (importer.named i).flatMap (·.names) = i.names.filter fun name => (importer.submodule? i name).isSome := by
  unfold named
  induction i.names with
  | nil => rfl
  | cons name names ih => cases hs : importer.submodule? i name <;> simp [hs, ih]

theorem names_landFrom_perm {m : Nat} (hm : importer.Reaches i.source m) :
    ((importer.landFrom i).flatMap (·.names)).Perm i.names := by
  have hwhole : ([m].flatMap fun m =>
      if importer.rest i ≠ [] ∨ i.names = [] then [(⟨m, importer.rest i, i.isTypeOnly⟩ : ResolvedImport)]
      else []).flatMap (·.names) = importer.rest i := by
    by_cases hr : importer.rest i = [] <;> by_cases hn : i.names = [] <;> simp [hr, hn]
  rw [landFrom_eq, land?_eq_some_iff.mpr hm, Option.toList_some, List.flatMap_append, names_named, hwhole, rest]
  simpa using List.filter_append_perm (fun name => (importer.submodule? i name).isSome) i.names

/-- A from-import loses no name and takes none twice. -/
theorem landFrom_sharesOut (importer : Importer) (i : Import) : importer.SharesOut i (importer.landFrom i) where
  flag r hr := by
    rw [landFrom_eq, List.mem_append, List.mem_flatMap] at hr
    rcases hr with hr | ⟨m, -, hr⟩
    · exact (takesSubmodule_of_mem_named hr).2
    · split at hr
      · exact congrArg _ (List.mem_singleton.mp hr)
      · exact absurd hr List.not_mem_nil
  count m hm name := (names_landFrom_perm hm).count_eq name
  inside m hm := by
    have hsome : ∀ name, (importer.submodule? i name).isSome =
        decide (importer.ImportsPackage i ∧ importer.NamesSubmodule i name) := by
      intro name
      have hno : ¬∀ m, ¬importer.Reaches i.source m := fun h => h m hm
      rw [Bool.eq_iff_iff, isSome_submodule?_iff, decide_eq_true_eq, or_iff_right hno]
    refine ⟨importer.named i, importer.rest i, ?_, fun r hr => (takesSubmodule_of_mem_named hr).1, ?_, ?_⟩
    · rw [landFrom_eq, land?_eq_some_iff.mpr hm, Option.toList_some, List.flatMap_singleton]
    · rw [names_named, funext hsome]
    · unfold rest
      simp only [← Option.not_isSome, hsome, decide_not]
  outside hno := by
    have hnone : importer.land? i.source = none :=
      Option.eq_none_iff_forall_ne_some.mpr fun m hm => hno m (land?_eq_some_iff.mp hm)
    have hsome : ∀ name, (importer.submodule? i name).isSome = decide (importer.NamesSubmodule i name) := by
      intro name
      rw [Bool.eq_iff_iff, isSome_submodule?_iff, decide_eq_true_eq, and_iff_right (Or.inl hno)]
    rw [landFrom_eq, hnone, Option.toList_none, List.flatMap_nil, List.append_nil]
    refine ⟨fun r hr => (takesSubmodule_of_mem_named hr).1, ?_⟩
    rw [names_named, funext hsome]

end Importer

end ModuleGraph
