import ModuleGraph.Comment
import ModuleGraph.FileTree.Basic
import ModuleGraph.Json.Decode
import ModuleGraph.Order.StableSort

namespace ModuleGraph

/-- Aliases: patterns with the paths that they stand for, longest pattern first, and the directory in which
other bare specifiers are looked for. -/
structure AliasTable where
  baseUrl : Option Path
  paths : List (String × List Path)
  deriving DecidableEq, Repr

namespace AliasTable

structure CompilerOptions where
  baseUrl : Option String
  paths : Option (List (String × List String))

/-- Reads a map from patterns to lists of targets; of a repeated pattern the last one counts. -/
def readPaths? (j : Json) : Option (List (String × List String)) := do
  let entries ← (← j.members?).mapM fun m => (Json.list? Json.text? m.2).map (m.1, ·)
  return entries.foldl
    (fun kept e => kept.filter (·.1 ≠ e.1) ++ [e]) []

def readOptions? (j : Json) : Option CompilerOptions := do
  let [baseUrl, paths] ← j.fields? ["baseUrl", "paths"] | none
  return ⟨← Json.optional Json.text? baseUrl, ← Json.optional readPaths? paths⟩

/-- Longer patterns first, and patterns of one length in increasing order. -/
def precedes (a b : String × List Path) : Bool :=
  b.1.utf8ByteSize < a.1.utf8ByteSize || (a.1.utf8ByteSize == b.1.utf8ByteSize && a.1 < b.1)

/-- The table of some options, with all paths put under a root. -/
def ofOptions (root : Path) (options : CompilerOptions) : AliasTable :=
  let baseUrl := options.baseUrl.map fun b : String => root.join ⟨b⟩
  let base := baseUrl.getD root
  { baseUrl
    paths := stableSort precedes
      ((options.paths.getD []).map fun e => (e.1, e.2.map fun target : String => base.join ⟨target⟩)) }

/-- Reads the text of a configuration file, in which comments are allowed. -/
def parse? (root : Path) (text : List Char) : Option AliasTable := do
  let j ← Json.parse? (Comment.stripCurly text)
  let [options] ← j.fields? ["compilerOptions"] | none
  let options ← (← Json.optional readOptions? options)
  return ofOptions root options

/-- The configuration files, in the order in which they are looked for. -/
def fileNames : List String :=
  ["tsconfig.json", "jsconfig.json"]

/-- The table of the first configuration file under a root that can be read. -/
def load? (t : FileTree) (root : Path) : Option AliasTable :=
  fileNames.findSome? fun name : String => (t.readText? (root.join ⟨name⟩)).bind (parse? root)

/-- What a pattern leaves of a specifier: the part that its star at the end stands for, or nothing when the
two are equal. -/
def match? (pattern specifier : String) : Option (List Char) :=
  match pattern.toList.reverse with
  | '*' :: beginning => Text.after? beginning.reverse specifier.toList
  | _ => if pattern = specifier then some [] else none

/-- A target with the matched part in the place of each star of what is shown of it. -/
def expand (target : Path) (matched : List Char) : Path :=
  if '*' ∈ target.text.toList then
    ⟨String.ofList (target.text.toList.flatMap fun c => if c = '*' then matched else [c])⟩
  else target

/-- The paths that a specifier may stand for: the targets of all patterns that match it, then the specifier
itself under the base directory. -/
def candidates (table : AliasTable) (specifier : String) : List Path :=
  (table.paths.flatMap fun (pattern, targets) =>
    match match? pattern specifier with
    | some matched => targets.map (expand · matched)
    | none => [])
  ++ (table.baseUrl.map fun base => base.join ⟨specifier⟩).toList

end AliasTable

end ModuleGraph
