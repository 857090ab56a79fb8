import ModuleGraph.FileTree.Basic
import ModuleGraph.Json.Decode

/-!
Descriptions of the entries of a file tree: an object with the path of an entry and its text, its bytes in
hexadecimal, or the mark of a directory.
-/

namespace ModuleGraph

namespace FileTree

/-- The path that a description names below a directory, which the empty path names itself. -/
def pathIn (base : Path) (relative : String) : Path :=
  if relative = "" then base else base.join ⟨relative⟩

/-- Adds the entry that a description gives below a directory. -/
def addDescribed? (base : Path) (t : FileTree) (j : Json) : Option FileTree := do
  let [path, text, hex, dir] ← j.fields? ["path", "text", "hex", "dir"] | none
  let p := pathIn base (← Json.required Json.text? path)
  match ← Json.optional Json.text? text, ← Json.optional Json.text? hex,
      ← Json.optional Json.bool? dir with
  | some s, _, _ => t.write? p (Utf8.encode s)
  | none, some digits, _ => t.write? p (← Text.hexBytes? digits.toList)
  | none, none, some true => (t.makeDirectories? p).map (·.1)
  | _, _, _ => none

/-- The tree that the text of an array of descriptions gives, with paths relative to the root. -/
def ofText? (s : List Char) : Option FileTree := do
  let items ← (← Json.parse? s).list? some
  items.foldlM (addDescribed? ⟨"/"⟩) {}

end FileTree

end ModuleGraph
