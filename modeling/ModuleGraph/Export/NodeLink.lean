import ModuleGraph.Export.Document

namespace ModuleGraph

structure LinkNode where
  id : String
  group : String
  score : Float
  deriving Repr

structure Link where
  source : String
  target : String
  value : Float
  deriving Repr

structure NodeLink where
  nodes : List LinkNode
  links : List Link
  deriving Repr

namespace LinkNode

def toJson (n : LinkNode) : Json :=
  .ofMembers [("id", .ofText n.id), ("group", .ofText n.group), ("score", .ofFloat n.score)]

def ofJson? (j : Json) : Option LinkNode := do
  let [id, group, score] ← j.fields? ["id", "group", "score"] | none
  return {
    id := ← Json.required Json.text? id
    group := ← Json.required Json.text? group
    score := ← Json.required Json.float? score }

end LinkNode

namespace Link

def toJson (l : Link) : Json :=
  .ofMembers [
    ("source", .ofText l.source), ("target", .ofText l.target), ("value", .ofFloat l.value)]

def ofJson? (j : Json) : Option Link := do
  let [source, target, value] ← j.fields? ["source", "target", "value"] | none
  return {
    source := ← Json.required Json.text? source
    target := ← Json.required Json.text? target
    value := ← Json.required Json.float? value }

end Link

namespace NodeLink

def ofGraph (g : Graph Float) : NodeLink where
  nodes := g.nodes.map fun n => ⟨n.id, n.cluster, n.file.score⟩
  links := g.edges.map fun e => ⟨e.source, e.target, e.weight⟩

def toJson (n : NodeLink) : Json :=
  .ofMembers [
    ("nodes", .array (n.nodes.map LinkNode.toJson)), ("links", .array (n.links.map Link.toJson))]

def ofJson? (j : Json) : Option NodeLink := do
  let [nodes, links] ← j.fields? ["nodes", "links"] | none
  return {
    nodes := ← Json.required (Json.list? LinkNode.ofJson?) nodes
    links := ← Json.required (Json.list? Link.ofJson?) links }

end NodeLink

end ModuleGraph
