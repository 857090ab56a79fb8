import ModuleGraph.Graph.Basic

namespace ModuleGraph.Mermaid

def escapeChar (c : Char) : List Char :=
  if c = '"' then "#quot;".toList else [c]

def nodeName (rank : Nat) : List Char :=
  'n' :: Nat.toDigits 10 rank

def nodeLine (id : String) (rank : Nat) : List Char :=
  "    ".toList ++ nodeName rank ++ ['[', '"'] ++ id.toList.flatMap escapeChar ++ ['"', ']', '\n']

def rank? (shown : List String) (id : String) : Option Nat :=
  shown.zipIdx.reverse.lookup id

variable {K : Type}

/-- The line of an edge between two nodes that are shown; the arrow of one that only types need is dotted. -/
def edgeLine (shown : List String) (e : Edge K) : List Char :=
  match rank? shown e.source, rank? shown e.target with
  | some source, some target =>
    "    ".toList ++ nodeName source ++ (if e.isTypeOnly then " -.-> " else " --> ").toList
      ++ nodeName target ++ ['\n']
  | _, _ => []

/-- The chart of at most `maxNodes` nodes and the edges between them. -/
def render (g : Graph K) (maxNodes : Nat) : List Char :=
  let shown := g.rankings.byImportance.take maxNodes
  "graph TD\n".toList ++ shown.zipIdx.flatMap (fun (id, rank) => nodeLine id rank)
    ++ g.edges.flatMap (edgeLine shown)

end ModuleGraph.Mermaid
