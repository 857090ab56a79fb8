import ModuleGraph.Export.Dot
import ModuleGraph.Export.Mermaid
import ModuleGraph.Export.NodeLink
import ModuleGraph.Failure

namespace ModuleGraph

inductive Format where
  | graph
  | nodeLink
  | mermaid
  | dot
  deriving DecidableEq, Repr

namespace Format

def name : Format → String
  | .graph => "graph"
  | .nodeLink => "node-link"
  | .mermaid => "mermaid"
  | .dot => "dot"

def all : List Format :=
  [.graph, .nodeLink, .mermaid, .dot]

def ofName? (name : String) : Option Format :=
  all.find? (·.name == name)

end Format

/-- The text of a graph; only a chart is limited to so many nodes. -/
def Graph.render (g : Graph Float) (format : Format) (maxNodes : Nat) : List Char :=
  match format with
  | .graph => g.toJson.pretty
  | .nodeLink => (NodeLink.ofGraph g).toJson.pretty
  | .mermaid => Mermaid.render g maxNodes
  | .dot => Dot.render g

/-- Whether a graph can be written as a document: all its paths are texts. -/
def Graph.hasTextPaths (g : Graph Float) : Bool :=
  g.nodes.all fun n => n.file.absolutePath.raw.text?.isSome

def Graph.write (g : Graph Float) (format : Format) (maxNodes : Nat) : Except Failure (List Char) :=
  if format = .graph ∧ !g.hasTextPaths then .error .badDocument else .ok (g.render format maxNodes)

end ModuleGraph
