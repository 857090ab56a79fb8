import ModuleGraph.Failure
import ModuleGraph.FileRecord
import ModuleGraph.FileTree.Family
import ModuleGraph.Order.StableSort
import ModuleGraph.Scalar

namespace ModuleGraph.FileTree

/-- Names of entries that are skipped with all that is below them. -/
def prunedNames : List String :=
  ["node_modules", ".git", "target", "dist", "build", "__pycache__", ".venv", "venv"]

def isPruned (name : RawText) : Bool :=
  name.lossy ∈ prunedNames

/-- Whether a file can be read as source: its extension belongs to a family, or it has no extension and is
text whose first line names an interpreter. -/
def isSource (t : FileTree) (p : Path) : Bool :=
  match p.extension? with
  | some extension => (Family.ofExtension? extension).isSome
  | none => ((t.readText? p).bind Family.ofShebang?).isSome

def below? (above l : Location) : Option (List RawText) :=
  if above.isPrefixOf l ∧ above ≠ l then some (l.drop above.length) else none

/-- The files below a place that no pruned name leads to, by what leads to them. -/
def filesBelow (t : FileTree) (l : Location) : List (List RawText) :=
  t.files.filterMap fun f => (below? l f.1).filter fun names => !names.any isPruned

/-- The path of what some names lead to from a directory. -/
def pathBelow (root : Path) (names : List RawText) : Path :=
  names.foldl (fun p n => p.join ⟨n⟩) root

/-- The records of the source files below a directory, by increasing relative path. -/
def discover {K : Type} [Scalar K] (t : FileTree) (root : Path) :
    Except Failure (List (FileRecord K)) :=
  match t.locate? root with
  | some l =>
    if t.hasDirectory l then
      let paths := ((t.filesBelow l).map (pathBelow root)).filter t.isSource
      .ok (stableSort (fun a b => a.relativePath < b.relativePath)
        (paths.map fun p => .ofPath root p Scalar.zero))
    else .error (.notDirectory root)
  | none => .error (.notDirectory root)

end ModuleGraph.FileTree
