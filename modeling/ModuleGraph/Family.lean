import ModuleGraph.Text.Basic

namespace ModuleGraph

/-- A family of source files with one grammar of imports and exports. -/
inductive Family where
  /-- ES modules, CommonJS and dynamic imports. -/
  | curly
  /-- Python modules. -/
  | indent
  deriving DecidableEq, Repr

namespace Family

def curlyExtensions : List String :=
  ["ts", "tsx", "js", "jsx", "mjs", "cjs", "mts", "cts"]

def indentExtensions : List String :=
  ["py", "pyi", "pyw"]

/-- The family of a file extension, given with or without leading dots. -/
def ofExtension? (extension : String) : Option Family :=
  let bare := String.ofList (extension.toList.dropWhile (· == '.'))
  if bare ∈ curlyExtensions then some .curly
  else if bare ∈ indentExtensions then some .indent
  else none

/-- The family named by an interpreter line that starts with `#!`. -/
def ofInterpreter? (line : List Char) : Option Family :=
  if !Text.startsWith line "#!".toList then none
  else if Text.occursIn "python".toList line then some .indent
  else if Text.occursIn "node".toList line || Text.occursIn "deno".toList line
      || Text.occursIn "bun".toList line then some .curly
  else none

def byteOrderMark : Char := '\uFEFF'

/-- The family named by the first line of a text; byte order marks before it are skipped. -/
def ofShebang? (text : List Char) : Option Family := do
  let line ← (Text.lines (text.dropWhile (· == byteOrderMark))).head?
  ofInterpreter? line

/-- The family of a file with the given extension, if it has one, and the given text. -/
def detect? (extension : Option String) (text : List Char) : Option Family :=
  match extension with
  | some extension => ofExtension? extension
  | none => ofShebang? text

def indexStem : Family → String
  | .curly => "index"
  | .indent => "__init__"

end Family

end ModuleGraph
