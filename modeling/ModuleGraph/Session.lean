import ModuleGraph.Extract
import ModuleGraph.FileTree.Family

namespace ModuleGraph

/-- What was found in a file, and whether it is worth remembering. -/
structure Extraction where
  declarations : Declarations
  keep : Bool
  deriving DecidableEq, Repr

namespace Extraction

def unsupported : Declarations :=
  .failed "Unsupported file type"

def unreadable : Declarations :=
  .failed "Failed to read file"

def ofBytes (extension : Option String) (bytes : List UInt8) : Declarations :=
  let text := Utf8.decodeLossy bytes
  match Family.detect? extension text with
  | some family => .ofSource family text
  | none => unsupported

/-- Reads a file and takes its declarations. A file with a foreign extension is not read, and neither that
nor a failure to read is remembered. -/
def ofFile (t : FileTree) (p : Path) : Extraction :=
  if p.extension?.any fun e => (Family.ofExtension? e).isNone then ⟨unsupported, false⟩
  else
    match t.read? p with
    | some bytes => ⟨ofBytes p.extension? bytes, true⟩
    | none => ⟨unreadable, false⟩

end Extraction

/-- Remembered declarations. Paths with the same components share an entry. -/
structure Session where
  entries : List (List Path.Component × Declarations) := []

namespace Session

def lookup? (s : Session) (p : Path) : Option Declarations :=
  s.entries.lookup p.components

/-- Remembers declarations in the place of what was remembered for the path. -/
def insert (s : Session) (p : Path) (d : Declarations) : Session :=
  { entries := (p.components, d) :: s.entries.filter fun e => e.1 ≠ p.components }

def size (s : Session) : Nat :=
  s.entries.length

def remember (s : Session) (p : Path) (e : Extraction) : Session :=
  if e.keep then s.insert p e.declarations else s

/-- The declarations of a file: the remembered ones, or else those read from the tree now. -/
def extract (t : FileTree) (s : Session) (p : Path) : Declarations × Session :=
  match s.lookup? p with
  | some d => (d, s)
  | none =>
    let e := Extraction.ofFile t p
    (e.declarations, s.remember p e)

end Session

end ModuleGraph
