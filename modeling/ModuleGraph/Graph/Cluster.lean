import ModuleGraph.Graph.Basic
import ModuleGraph.Order.StableSort
import ModuleGraph.Text.Basic

namespace ModuleGraph

namespace Cluster

def rootName : String := "."

def fallbackDomain : String := "core"

/-- The segments of a directory, empty ones included. -/
def segments (directory : String) : List String :=
  (Text.pieces (· == '/') directory.toList).map String.ofList

def filledSegments (directory : String) : List String :=
  (segments directory).filter (· ≠ "")

def key (directory : String) : String :=
  ((segments directory).find? fun s => s ≠ "" ∧ s ≠ rootName).getD rootName

def lowered (s : String) : String :=
  String.ofList (s.toList.map Char.toLower)

/-- Whether a segment is among the generic ones, whatever the case of its ASCII letters. -/
def isGeneric (generic : List String) (segment : String) : Bool :=
  generic.any fun g => lowered g == lowered segment

def commonStart : List String → List String → List String
  | a :: as, b :: bs => if a = b then a :: commonStart as bs else []
  | _, _ => []

def sharedStart : List String → List String
  | [] => []
  | first :: rest =>
    rest.foldl (fun shared d => commonStart shared (filledSegments d)) (filledSegments first)

/-- The domain that directories with a common key suggest: the last segment of their shared start that is
not generic, else that of the key, else the fallback. -/
def suggestDomain (directories : List String) (key : String) (generic : List String) : String :=
  let fromDirectories := (sharedStart directories).reverse.find? fun s => !isGeneric generic s
  let fromKey := (segments key).reverse.find? fun s =>
    s ≠ "" && s ≠ rootName && !isGeneric generic s
  (fromDirectories.or fromKey).getD fallbackDomain

structure Member where
  id : String
  directory : String
  deriving DecidableEq, Repr

def hasKey (keys : List String) (name : String) (i : Nat) : Bool :=
  keys[i]? == some name

def countInternal (keys : List String) (edges : List (Nat × Nat)) (name : String) : Nat :=
  edges.countP fun e => hasKey keys name e.1 && hasKey keys name e.2

def countExternal (keys : List String) (edges : List (Nat × Nat)) (name : String) : Nat :=
  edges.countP fun e => hasKey keys name e.1 != hasKey keys name e.2

def names (keys : List String) : List String :=
  stableSort (fun a b => a < b) keys.eraseDups

def ofName (members : List Member) (edges : List (Nat × Nat)) (generic : List String)
    (name : String) : Cluster :=
  let keys := members.map fun m => key m.directory
  let inside := members.filter fun m => key m.directory == name
  { name
    nodes := inside.map (·.id)
    internalEdges := countInternal keys edges name
    externalEdges := countExternal keys edges name
    suggestedDomain := suggestDomain (inside.map (·.directory)) name generic }

/-- The clusters of some members by name, and the cluster name of each member. -/
def group (members : List Member) (edges : List (Nat × Nat)) (generic : List String) :
    List Cluster × List String :=
  let keys := members.map fun m => key m.directory
  ((names keys).map (ofName members edges generic), keys)

end Cluster

end ModuleGraph
