import ModuleGraph.Text.Basic
import ModuleGraph.Text.Raw

/-!
Paths as they are written, with the operations that look at their components only: a repeated separator, a
separator at the end and a dot that is not at the start do not count. A path is bytes; its text is what is shown of it.
-/

namespace ModuleGraph

/-- A path as it is written. -/
structure Path where
  raw : RawText
  deriving DecidableEq, Repr, Inhabited

namespace Path

/-- The separator of the pieces of a path. -/
abbrev slash : UInt8 := 0x2F

abbrev dot : UInt8 := 0x2E

def text (p : Path) : String :=
  p.raw.lossy

inductive Component where
  | root
  | here
  | up
  | name (n : RawText)
  deriving DecidableEq, Repr

namespace Component

def raw : Component → RawText
  | .root => "/"
  | .here => "."
  | .up => ".."
  | .name n => n

def text (c : Component) : String :=
  c.raw.lossy

/-- The component written by a piece between two separators that does not start the path. -/
def ofPiece? (piece : List UInt8) : Option Component :=
  if piece = [] ∨ piece = [dot] then none
  else if piece = [dot, dot] then some .up
  else some (.name ⟨piece⟩)

end Component

def isAbsolute (p : Path) : Bool :=
  Text.startsWith p.raw.toList [slash]

/-- The components of a path. A dot counts only where a path starts with it. -/
def components (p : Path) : List Component :=
  let parts := Text.pieces (· == slash) p.raw.toList
  let start := if p.isAbsolute then [Component.root]
    else if parts.head? = some [dot] then [Component.here]
    else []
  start ++ parts.filterMap Component.ofPiece?

/-- One path after another: a separator is put between them unless there is one, and an absolute path takes
the place of what stands before it. -/
def join (p q : Path) : Path :=
  if q.isAbsolute then q
  else if p.raw.toList = [] ∨ Text.endsWith p.raw.toList [slash] then ⟨p.raw ++ q.raw⟩
  else ⟨p.raw ++ "/" ++ q.raw⟩

def ofComponents (cs : List Component) : Path :=
  cs.foldl (fun p c => p.join ⟨c.raw⟩) ⟨""⟩

/-- What is shown of components, joined by slashes. -/
def slashed (cs : List Component) : String :=
  "/".intercalate (cs.map Component.text)

/-- All components but the last; a root has no parent. -/
def parentOf? (cs : List Component) : Option (List Component) :=
  match cs.getLast? with
  | none | some .root => none
  | some _ => some cs.dropLast

def parent? (p : Path) : Option Path :=
  (parentOf? p.components).map ofComponents

/-- The last component, if it is a name. -/
def fileName? (p : Path) : Option RawText :=
  match p.components.getLast? with
  | some (.name n) => some n
  | _ => none

/-- A file name cut at its last dot. A dot at the very start does not count. -/
def splitName (name : RawText) : RawText × Option RawText :=
  let backward := name.toList.reverse
  match backward.dropWhile (· != dot) with
  | _ :: b :: stem => (⟨(b :: stem).reverse⟩, some ⟨(backward.takeWhile (· != dot)).reverse⟩)
  | _ => (name, none)

def stem? (p : Path) : Option RawText :=
  p.fileName?.map fun n => (splitName n).1

/-- The extension, if it is a text. -/
def extension? (p : Path) : Option String :=
  p.fileName?.bind fun n => (splitName n).2.bind RawText.text?

/-- A path whose extension, written at its end, is replaced by another one. Where only a step up is left
before it, as in `..js`, the new extension has no name to go to and is left out. -/
def swapExtension (p : Path) (old new : String) : Path :=
  let start : Path := ⟨⟨p.raw.toList.take (p.raw.toList.length - (RawText.ofString old).toList.length)⟩⟩
  if start.fileName?.isSome then ⟨start.raw ++ new⟩ else start

def withSuffix (p : Path) (extension : String) : Path :=
  ⟨p.raw ++ "." ++ extension⟩

/-- Adds a component to cleaned components, which are held last first. A step up cancels a name, has no
effect at the root, and stays where nothing is left to cancel. -/
def cleanStep : List Component → Component → List Component
  | cs, .here => cs
  | .root :: cs, .up => .root :: cs
  | .name _ :: cs, .up => cs
  | cs, c => c :: cs

def cleanComponents (cs : List Component) : List Component :=
  (cs.foldl cleanStep []).reverse

/-- The path without dots and without names that a step up cancels, told from its text alone. -/
def clean (p : Path) : Path :=
  match cleanComponents p.components with
  | [] => ⟨"."⟩
  | cs => ofComponents cs

/-- What is left of a list of components after a beginning. -/
def stripComponents? : (beginning : List Component) → List Component → Option (List Component)
  | [], cs => some cs
  | _ :: _, [] => none
  | b :: bs, c :: cs => if b = c then stripComponents? bs cs else none

end Path

end ModuleGraph
