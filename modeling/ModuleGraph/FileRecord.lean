import ModuleGraph.Path

namespace ModuleGraph

/-- A file under a root: its path there, which is also its id, and what is derived from the path. -/
structure FileRecord (K : Type) where
  relativePath : String
  absolutePath : Path
  extension : String
  directory : String
  score : K
  deriving DecidableEq, Repr

namespace FileRecord

/-- The components of a path below a root, or all of them when it does not lie below the root. -/
def relativeComponents (root absolute : Path) : List Path.Component :=
  (Path.stripComponents? root.components absolute.components).getD absolute.components

def ofPath {K : Type} (root absolute : Path) (score : K) : FileRecord K :=
  let relative := relativeComponents root absolute
  { relativePath := Path.slashed relative
    absolutePath := absolute
    extension := absolute.extension?.getD ""
    directory := Path.slashed ((Path.parentOf? relative).getD [])
    score }

def id {K : Type} (f : FileRecord K) : String :=
  f.relativePath

end FileRecord

end ModuleGraph
