import ModuleGraph.Declaration
import ModuleGraph.FileTree.Family
import ModuleGraph.Scalar

namespace ModuleGraph

/-- The cleaned path of every node with its number, the last node first. -/
abbrev NodeIndex := List (Path × Nat)

namespace NodeIndex

def ofPaths (paths : List Path) : NodeIndex :=
  (paths.zipIdx.map fun e => (e.1.clean, e.2)).reverse

def find? (index : NodeIndex) (p : Path) : Option Nat :=
  index.lookup p.clean

end NodeIndex

structure ResolvedImport where
  target : Nat
  names : List String
  isTypeOnly : Bool
  deriving DecidableEq, Repr

/-- A file that imports, and what its specifiers are resolved with. -/
structure Importer where
  tree : FileTree
  resolver : Resolver
  index : NodeIndex
  path : Path
  family : Family

namespace Importer

def resolve? (importer : Importer) (spec : String) : Option Path :=
  importer.resolver.resolveAs? importer.tree importer.family importer.path spec

def land? (importer : Importer) (spec : String) : Option Nat :=
  (importer.resolve? spec).bind importer.index.find?

def submodule (source name : String) : String :=
  if source.toList.all (· == '.') then source ++ name else source ++ "." ++ name

/-- The name goes behind a dotted name with a dot of its own, and behind leading dots without one. -/
theorem toList_submodule {source : String} {levels : Nat} {rest : List Char}
    (hsource : source.toList = List.replicate levels '.' ++ rest) (hrest : rest.head? ≠ some '.') (name : String) :
    (submodule source name).toList =
      List.replicate levels '.' ++ if rest = [] then name.toList else rest ++ '.' :: name.toList := by
  have hall : source.toList.all (· == '.') = rest.isEmpty := by
    rw [hsource, List.all_append, List.all_replicate]
    cases rest with
    | nil => simp
    | cons c rest =>
      have hc : c ≠ '.' := fun hc => hrest (congrArg some hc)
      simp [hc]
  unfold submodule
  rw [hall]
  cases rest <;> simp [hsource]

def isPackageInit (p : Path) : Bool :=
  p.stem? == some (Family.indexStem .indent : RawText)

/-- The nodes that the names of a from-import land on as submodules. Names are looked for as submodules when
the module is not a node or stands for its package. -/
def submodules (importer : Importer) (i : Import) : List (String × Option Nat) :=
  let file := importer.resolve? i.source
  let looked := (file.bind importer.index.find?).isNone || file.any isPackageInit
  i.names.map fun name =>
    (name, if looked then importer.land? (submodule i.source name) else none)

/-- The imports of a from-import: one for each name that is a submodule, and one of the module for the names
that are left. A module without any names is imported as well. -/
def landFrom (importer : Importer) (i : Import) : List ResolvedImport :=
  let found := importer.submodules i
  let named := found.filterMap fun (name, target) =>
    target.map fun target => ⟨target, [name], i.isTypeOnly⟩
  let rest := (found.filter fun f => f.2.isNone).map (·.1)
  let whole := match importer.land? i.source with
    | some target => if rest.isEmpty && !i.names.isEmpty then [] else [⟨target, rest, i.isTypeOnly⟩]
    | none => []
  named ++ whole

def land (importer : Importer) (i : Import) : List ResolvedImport :=
  if i.origin = .builtin then []
  else if importer.family = .indent && !i.hasNamespace then importer.landFrom i
  else ((importer.land? i.source).map fun target => ⟨target, i.names, i.isTypeOnly⟩).toList

def landAll (importer : Importer) (d : Declarations) : List ResolvedImport :=
  d.imports.flatMap importer.land

end Importer

def typeOnlyWeight {K : Type} [Scalar K] : K :=
  Scalar.one / Scalar.ofNat 2

def valueWeight {K : Type} [Scalar K] : K :=
  Scalar.one

structure Draft (K : Type) where
  source : Nat
  target : Nat
  names : List String
  isTypeOnly : Bool
  weight : K
  deriving DecidableEq, Repr

namespace Draft

variable {K : Type} [Scalar K]

def fresh (source target : Nat) : Draft K :=
  { source, target, names := [], isTypeOnly := true, weight := typeOnlyWeight }

def addNames (names new : List String) : List String :=
  new.foldl (fun names n => if n ∈ names then names else names ++ [n]) names

def absorb (d : Draft K) (i : ResolvedImport) : Draft K :=
  let d := { d with names := addNames d.names i.names }
  if i.isTypeOnly then d else { d with isTypeOnly := false, weight := valueWeight }

end Draft

/-- The edges of a file so far, and the place among them of the edge of each target. -/
structure Aggregation (K : Type) where
  drafts : List (Draft K) := []
  slots : List (Nat × Nat) := []

namespace Aggregation

variable {K : Type} [Scalar K]

/-- The place of the edge of a target, which is added when it is missing. -/
def slot (source : Nat) (a : Aggregation K) (target : Nat) : Nat × Aggregation K :=
  match a.slots.lookup target with
  | some slot => (slot, a)
  | none =>
    (a.drafts.length,
      { drafts := a.drafts ++ [.fresh source target], slots := (target, a.drafts.length) :: a.slots })

def add (source : Nat) (a : Aggregation K) (i : ResolvedImport) : Aggregation K :=
  let (slot, a) := a.slot source i.target
  { a with drafts := a.drafts.modify slot (·.absorb i) }

end Aggregation

/-- One edge for each target, in the order in which the targets appear. -/
def Draft.aggregate {K : Type} [Scalar K] (source : Nat) (imports : List ResolvedImport) : List (Draft K) :=
  (imports.foldl (Aggregation.add source) {}).drafts

end ModuleGraph
