import ModuleGraph.Path
import ModuleGraph.Text.Utf8

/-!
A tree of files and directories as data, and the entries that paths name in it. A tree has no symbolic links, so a
place has one name, and no permissions, so every file in it can be read; a file cannot be read only where no file is.
-/

namespace ModuleGraph

/-- A place in a file tree: the names that lead to it from the root. -/
abbrev Location := List RawText

/-- Files with their bytes, directories, and the directory that relative paths start from. The root is always
a directory. -/
structure FileTree where
  files : List (Location × List UInt8) := []
  directories : List Location := []
  workingDirectory : Location := []
  deriving DecidableEq

inductive Entry where
  | file (bytes : List UInt8)
  | directory

namespace FileTree

def bytesAt? (t : FileTree) (l : Location) : Option (List UInt8) :=
  (t.files.find? (·.1 = l)).map (·.2)

def hasDirectory (t : FileTree) (l : Location) : Bool :=
  l = [] || l ∈ t.directories

def entryAt? (t : FileTree) (l : Location) : Option Entry :=
  if t.hasDirectory l then some .directory else (t.bytesAt? l).map .file

/-- The place that a piece of a path leads to. A piece can only be followed from a directory. -/
def follow? (t : FileTree) (l : Location) (piece : List UInt8) : Option Location :=
  if !t.hasDirectory l then none
  else if piece = [] ∨ piece = [Path.dot] then some l
  else if piece = [Path.dot, Path.dot] then some l.dropLast
  else
    let child := l ++ [⟨piece⟩]
    if (t.entryAt? child).isSome then some child else none

/-- The place that a path names; the empty path names none. -/
def locate? (t : FileTree) (p : Path) : Option Location :=
  if p.raw.toList = [] then none
  else
    let start := if p.isAbsolute then [] else t.workingDirectory
    (Text.pieces (· == Path.slash) p.raw.toList).foldlM t.follow? start

def find? (t : FileTree) (p : Path) : Option Entry :=
  (t.locate? p).bind t.entryAt?

def isFile (t : FileTree) (p : Path) : Bool :=
  match t.find? p with
  | some (.file _) => true
  | _ => false

def read? (t : FileTree) (p : Path) : Option (List UInt8) :=
  match t.find? p with
  | some (.file bytes) => some bytes
  | _ => none

/-- The text of a file whose bytes all encode characters. -/
def readText? (t : FileTree) (p : Path) : Option (List Char) :=
  (t.read? p).bind Utf8.decode?

/-- Makes a directory at a place whose parent is a directory. Where a file stands it fails. -/
def enterOrMake? (state : FileTree × Location) (piece : List UInt8) : Option (FileTree × Location) :=
  let (t, l) := state
  if piece = [] ∨ piece = [Path.dot] then some (t, l)
  else if piece = [Path.dot, Path.dot] then some (t, l.dropLast)
  else
    let child := l ++ [⟨piece⟩]
    match t.entryAt? child with
    | some .directory => some (t, child)
    | some (.file _) => none
    | none => some ({ t with directories := child :: t.directories }, child)

/-- Makes the directories that a path names, and returns where it leads. -/
def makeDirectories? (t : FileTree) (p : Path) : Option (FileTree × Location) :=
  let start := if p.isAbsolute then [] else t.workingDirectory
  (Text.pieces (· == Path.slash) p.raw.toList).foldlM enterOrMake? (t, start)

/-- Puts a file at a place, over the one that stands there. -/
def putFile (t : FileTree) (l : Location) (bytes : List UInt8) : FileTree :=
  { t with files := t.files.filter (·.1 ≠ l) ++ [(l, bytes)] }

/-- Writes a file and makes the directories above it. A directory is never overwritten. -/
def write? (t : FileTree) (p : Path) (bytes : List UInt8) : Option FileTree := do
  let (t, above) ← t.makeDirectories? (← p.parent?)
  let l := above ++ [← p.fileName?]
  if t.hasDirectory l then none else some (t.putFile l bytes)

/-- Removes the file or the whole directory that a path names. -/
def remove? (t : FileTree) (p : Path) : Option FileTree :=
  (t.locate? p).map fun l =>
    { t with
      files := t.files.filter fun f => !l.isPrefixOf f.1
      directories := t.directories.filter fun d => !l.isPrefixOf d }

end FileTree

end ModuleGraph
