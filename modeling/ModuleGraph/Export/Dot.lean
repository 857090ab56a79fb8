import ModuleGraph.Graph.Basic

namespace ModuleGraph.Dot

/-- A text with other characters in the place of each one that is `c`. -/
def replaced (c : Char) (others text : List Char) : List Char :=
  text.flatMap fun d => if d = c then others else [d]

/-- A text with its backslashes doubled and then a backslash before each quote. -/
def escaped (text : List Char) : List Char :=
  replaced '"' ['\\', '"'] (replaced '\\' ['\\', '\\'] text)

def quote (id : String) : List Char :=
  '"' :: escaped id.toList ++ ['"']

variable {K : Type}

def edgeLine (e : Edge K) : List Char :=
  "    ".toList ++ quote e.source ++ " -> ".toList ++ quote e.target
    ++ (if e.isTypeOnly then " [style=dashed]".toList else []) ++ [';', '\n']

def render (g : Graph K) : List Char :=
  "digraph dependencies \x7b\n    rankdir=LR;\n".toList ++ g.edges.flatMap edgeLine ++ ['}', '\n']

end ModuleGraph.Dot
