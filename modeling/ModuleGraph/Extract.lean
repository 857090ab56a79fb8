import ModuleGraph.Curly.Extract
import ModuleGraph.Indent.Extract

namespace ModuleGraph.Declarations

/-- A text without one byte order mark at its start; it never holds a newline, so lines do not move. -/
def dropMark : List Char → List Char
  | [] => []
  | c :: cs => if c = Family.byteOrderMark then cs else c :: cs

def ofSource (family : Family) (text : List Char) : Declarations :=
  match family with
  | .curly => Curly.extract (dropMark text)
  | .indent => Indent.extract (dropMark text)

end ModuleGraph.Declarations
