import ModuleGraph.Graph.Basic
import ModuleGraph.Json.Decode
import ModuleGraph.Json.Write

namespace ModuleGraph

namespace Json

/-- Doubles are written out while their point stands less than five places left or at most sixteen places
right of the first digit's place. -/
def numberLayout : DecimalLayout where
  firstPosition := -4
  lastPosition := 16

def ofFloat (x : Float) : Json :=
  match numberLayout.writeFloat? x with
  | some spelling => .number spelling
  | none => .null

end Json

namespace ExportKind

def names : List (String × ExportKind) := [
  ("function", .function), ("class", .classDefinition), ("variable", .variable), ("type", .type),
  ("interface", .interface), ("enum", .enum), ("unknown", .unknown)]

def name : ExportKind → String
  | .function => "function"
  | .classDefinition => "class"
  | .variable => "variable"
  | .type => "type"
  | .interface => "interface"
  | .enum => "enum"
  | .unknown => "unknown"

end ExportKind

def Import.toJson (i : Import) : Json :=
  .ofMembers [
    ("source", .ofText i.source),
    ("importedNames", .ofTexts i.names),
    ("isRelative", .bool (i.origin = .relative)),
    ("isPackage", .bool (i.origin = .package)),
    ("isBuiltin", .bool (i.origin = .builtin)),
    ("hasDefault", .bool i.hasDefault),
    ("hasNamespace", .bool i.hasNamespace),
    ("isTypeOnly", .bool i.isTypeOnly),
    ("isDynamic", .bool i.isDynamic),
    ("line", .ofNat i.line)]

namespace Export

def toJson (e : Export) : Json :=
  .ofMembers ([
    ("name", .ofText e.name),
    ("isDefault", .bool e.isDefault),
    ("isType", .bool e.isType),
    ("isReExport", .bool e.isReExport)]
    ++ (e.reExportSource.map fun s => ("reExportSource", Json.ofText s)).toList
    ++ [("kind", .ofText e.kind.name), ("line", .ofNat e.line)])

def ofJson? (j : Json) : Option Export := do
  let [name, isDefault, isType, isReExport, source, kind, line] ← j.fields? [
    "name", "isDefault", "isType", "isReExport", "reExportSource", "kind", "line"] | none
  return {
    name := ← Json.required Json.text? name
    isDefault := ← Json.required Json.bool? isDefault
    isType := ← Json.required Json.bool? isType
    isReExport := ← Json.required Json.bool? isReExport
    reExportSource := ← Json.optional Json.text? source
    kind := ← Json.required (Json.alternative? ExportKind.names) kind
    line := ← Json.required Json.count? line }

end Export

def Declarations.toJson (d : Declarations) : Json :=
  .ofMembers [
    ("imports", .array (d.imports.map Import.toJson)),
    ("exports", .array (d.exports.map Export.toJson)),
    ("errors", .ofTexts d.errors)]

namespace FileRecord

def members (f : FileRecord Float) : List (String × Json) := [
  ("relativePath", .ofText f.relativePath),
  ("absolutePath", .ofText f.absolutePath.text),
  ("extension", .ofText f.extension),
  ("directory", .ofText f.directory),
  ("score", .ofFloat f.score)]

def toJson (f : FileRecord Float) : Json :=
  .ofMembers f.members

def ofJson? (j : Json) : Option (FileRecord Float) := do
  let [relativePath, absolutePath, extension, directory, score] ← j.fields? [
    "relativePath", "absolutePath", "extension", "directory", "score"] | none
  return {
    relativePath := ← Json.required Json.text? relativePath
    absolutePath := ⟨← Json.required Json.text? absolutePath⟩
    extension := ← Json.required Json.text? extension
    directory := ← Json.required Json.text? directory
    score := ← Json.required Json.float? score }

end FileRecord

namespace NodeMetrics

def toJson (m : NodeMetrics Float) : Json :=
  .ofMembers [
    ("inDegree", .ofNat m.inDegree),
    ("outDegree", .ofNat m.outDegree),
    ("betweenness", .ofFloat m.betweenness),
    ("pageRank", .ofFloat m.pageRank)]

def ofJson? (j : Json) : Option (NodeMetrics Float) := do
  let [inDegree, outDegree, betweenness, pageRank] ← j.fields? [
    "inDegree", "outDegree", "betweenness", "pageRank"] | none
  return {
    inDegree := ← Json.required Json.count? inDegree
    outDegree := ← Json.required Json.count? outDegree
    betweenness := ← Json.required Json.float? betweenness
    pageRank := ← Json.required Json.float? pageRank }

end NodeMetrics

namespace Node

def toJson (n : Node Float) : Json :=
  .ofMembers [
    ("id", .ofText n.id),
    ("file", n.file.toJson),
    ("cluster", .ofText n.cluster),
    ("exports", .array (n.exports.map Export.toJson)),
    ("metrics", n.metrics.toJson)]

def ofJson? (j : Json) : Option (Node Float) := do
  let [id, file, cluster, exports, metrics] ← j.fields? [
    "id", "file", "cluster", "exports", "metrics"] | none
  return {
    id := ← Json.required Json.text? id
    file := ← Json.required FileRecord.ofJson? file
    cluster := ← Json.required Json.text? cluster
    exports := ← Json.required (Json.list? Export.ofJson?) exports
    metrics := ← Json.required NodeMetrics.ofJson? metrics }

end Node

namespace Edge

def toJson (e : Edge Float) : Json :=
  .ofMembers [
    ("source", .ofText e.source),
    ("target", .ofText e.target),
    ("importedNames", .ofTexts e.importedNames),
    ("isTypeOnly", .bool e.isTypeOnly),
    ("weight", .ofFloat e.weight)]

def ofJson? (j : Json) : Option (Edge Float) := do
  let [source, target, importedNames, isTypeOnly, weight] ← j.fields? [
    "source", "target", "importedNames", "isTypeOnly", "weight"] | none
  return {
    source := ← Json.required Json.text? source
    target := ← Json.required Json.text? target
    importedNames := ← Json.required (Json.list? Json.text?) importedNames
    isTypeOnly := ← Json.required Json.bool? isTypeOnly
    weight := ← Json.required Json.float? weight }

end Edge

namespace Cluster

def toJson (c : Cluster) : Json :=
  .ofMembers [
    ("name", .ofText c.name),
    ("nodes", .ofTexts c.nodes),
    ("internalEdges", .ofNat c.internalEdges),
    ("externalEdges", .ofNat c.externalEdges),
    ("suggestedDomain", .ofText c.suggestedDomain)]

def ofJson? (j : Json) : Option Cluster := do
  let [name, nodes, internalEdges, externalEdges, suggestedDomain] ← j.fields? [
    "name", "nodes", "internalEdges", "externalEdges", "suggestedDomain"] | none
  return {
    name := ← Json.required Json.text? name
    nodes := ← Json.required (Json.list? Json.text?) nodes
    internalEdges := ← Json.required Json.count? internalEdges
    externalEdges := ← Json.required Json.count? externalEdges
    suggestedDomain := ← Json.required Json.text? suggestedDomain }

end Cluster

namespace Rankings

def toJson (r : Rankings) : Json :=
  .ofMembers [
    ("byImportance", .ofTexts r.byImportance),
    ("byConnectivity", .ofTexts r.byConnectivity),
    ("clusterCenters", .ofTexts r.clusterCenters),
    ("leafNodes", .ofTexts r.leafNodes),
    ("bridgeNodes", .ofTexts r.bridgeNodes),
    ("orphanNodes", .ofTexts r.orphanNodes)]

def ofJson? (j : Json) : Option Rankings := do
  let [byImportance, byConnectivity, clusterCenters, leafNodes, bridgeNodes, orphanNodes] ←
    j.fields? ["byImportance", "byConnectivity", "clusterCenters", "leafNodes", "bridgeNodes",
      "orphanNodes"] | none
  let texts := Json.required (Json.list? Json.text?)
  return {
    byImportance := ← texts byImportance
    byConnectivity := ← texts byConnectivity
    clusterCenters := ← texts clusterCenters
    leafNodes := ← texts leafNodes
    bridgeNodes := ← texts bridgeNodes
    orphanNodes := ← texts orphanNodes }

end Rankings

namespace Statistics

def toJson (s : Statistics Float) : Json :=
  .ofMembers [
    ("nodeCount", .ofNat s.nodeCount),
    ("edgeCount", .ofNat s.edgeCount),
    ("avgDegree", .ofFloat s.avgDegree),
    ("density", .ofFloat s.density),
    ("clusterCount", .ofNat s.clusterCount),
    ("cycleCount", .ofNat s.cycleCount)]

def ofJson? (j : Json) : Option (Statistics Float) := do
  let [nodeCount, edgeCount, avgDegree, density, clusterCount, cycleCount] ← j.fields? [
    "nodeCount", "edgeCount", "avgDegree", "density", "clusterCount", "cycleCount"] | none
  return {
    nodeCount := ← Json.required Json.count? nodeCount
    edgeCount := ← Json.required Json.count? edgeCount
    avgDegree := ← Json.required Json.float? avgDegree
    density := ← Json.required Json.float? density
    clusterCount := ← Json.required Json.count? clusterCount
    cycleCount := ← Json.required Json.count? cycleCount }

end Statistics

namespace Graph

def toJson (g : Graph Float) : Json :=
  .ofMembers [
    ("nodes", .array (g.nodes.map Node.toJson)),
    ("edges", .array (g.edges.map Edge.toJson)),
    ("clusters", .array (g.clusters.map Cluster.toJson)),
    ("cycles", .array (g.cycles.map Json.ofTexts)),
    ("rankings", g.rankings.toJson),
    ("statistics", g.statistics.toJson)]

def ofJson? (j : Json) : Option (Graph Float) := do
  let [nodes, edges, clusters, cycles, rankings, statistics] ← j.fields? [
    "nodes", "edges", "clusters", "cycles", "rankings", "statistics"] | none
  return {
    nodes := ← Json.required (Json.list? Node.ofJson?) nodes
    edges := ← Json.required (Json.list? Edge.ofJson?) edges
    clusters := ← Json.required (Json.list? Cluster.ofJson?) clusters
    cycles := ← Json.required (Json.list? (Json.list? Json.text?)) cycles
    rankings := ← Json.required Rankings.ofJson? rankings
    statistics := ← Json.required Statistics.ofJson? statistics }

end Graph

end ModuleGraph
