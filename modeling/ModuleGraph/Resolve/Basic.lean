import ModuleGraph.Resolve.Alias
import ModuleGraph.Specifier

namespace ModuleGraph

structure ResolveOptions where
  baseDir : Path
  extensions : List String
  useTsconfig : Bool
  deriving DecidableEq, Repr

namespace ResolveOptions

def defaultExtensions : List String :=
  [".ts", ".tsx", ".js", ".jsx", ".mjs", ".cjs", ".mts", ".cts", ".json", ".py", ".pyi"]

def ofBase (baseDir : Path) : ResolveOptions :=
  { baseDir, extensions := defaultExtensions, useTsconfig := true }

end ResolveOptions

/-- Options together with the aliases of the project. -/
structure Resolver where
  options : ResolveOptions
  aliases : Option AliasTable

namespace Resolver

/-- The resolver for some options; it reads the project's aliases once. -/
def ofOptions (t : FileTree) (options : ResolveOptions) : Resolver :=
  { options, aliases := if options.useTsconfig then AliasTable.load? t options.baseDir else none }

/-- The source extensions behind an emitted one: a specifier may name the file that a source is compiled to. -/
def sourceExtensions (emitted : String) : List String :=
  if emitted = "js" then ["ts", "tsx"]
  else if emitted = "jsx" then ["tsx"]
  else if emitted = "mjs" then ["mts"]
  else if emitted = "cjs" then ["cts"]
  else []

/-- Whether an extension is tried for importers of a family. The curly-brace family also takes extensions
that belong to no family. -/
def accepts (family : Family) (extension : String) : Bool :=
  match Family.ofExtension? extension with
  | some f => f = family
  | none => family = .curly

/-- The extensions that are tried, without their leading dots. -/
def triedExtensions (options : ResolveOptions) (family : Family) : List String :=
  (options.extensions.map fun e => String.ofList (e.toList.dropWhile (· == '.'))).filter
    (accepts family)

/-- The sources that a path with an emitted extension may have been compiled from. -/
def sourceSwaps (family : Family) (base : Path) : List Path :=
  match family, base.extension? with
  | .curly, some emitted => (sourceExtensions emitted).map (base.swapExtension emitted)
  | _, _ => []

/-- The files that a base path may stand for: itself, itself with an extension, the source behind it, and the
index file of the directory. -/
def probes (options : ResolveOptions) (family : Family) (base : Path) : List Path :=
  let base := base.clean
  let extensions := triedExtensions options family
  base :: extensions.map base.withSuffix ++ sourceSwaps family base
    ++ extensions.map fun e : String => base.join ⟨family.indexStem ++ "." ++ e⟩

def dotsToSlashes (s : List Char) : Path :=
  ⟨String.ofList (s.map fun c => if c = '.' then '/' else c)⟩

def ascend : (levels : Nat) → Path → Option Path
  | 0, p => some p
  | levels + 1, p => p.parent?.bind (ascend levels)

/-- The base path of a relative specifier. One leading dot of a dotted specifier stands for the importer's
own directory, and each further one for a directory above. -/
def relativeBase? (options : ResolveOptions) (family : Family) (importer : Path) (spec : String) :
    Option Path := do
  let directory ← importer.parent?
  match family with
  | .curly =>
    match spec.toList with
    | '/' :: rooted => return options.baseDir.join ⟨String.ofList rooted⟩
    | _ => return directory.join ⟨spec⟩
  | .indent =>
    let rest := spec.toList.dropWhile (· == '.')
    let base ← ascend (spec.toList.length - rest.length - 1) directory
    return if rest.isEmpty then base else base.join (dotsToSlashes rest)

/-- The base paths of a specifier, in the order in which they are tried. -/
def bases (r : Resolver) (family : Family) (importer : Path) (spec : String) : List Path :=
  match Specifier.origin family spec, family with
  | .builtin, _ => []
  | .relative, _ => (relativeBase? r.options family importer spec).toList
  | .package, .curly =>
    match r.aliases with
    | some table => table.candidates spec
    | none => []
  | .package, .indent => [r.options.baseDir.join (dotsToSlashes spec.toList)]

/-- All paths that a specifier may stand for, in the order in which they are tried. -/
def candidates (r : Resolver) (family : Family) (importer : Path) (spec : String) : List Path :=
  (r.bases family importer spec).flatMap (probes r.options family)

/-- The file that a specifier stands for under the rules of a family. -/
def resolveAs? (t : FileTree) (r : Resolver) (family : Family) (importer : Path) (spec : String) :
    Option Path :=
  (r.candidates family importer spec).find? t.isFile

end Resolver

end ModuleGraph
