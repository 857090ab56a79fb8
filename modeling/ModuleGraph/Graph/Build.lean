import ModuleGraph.Betweenness
import ModuleGraph.Component
import ModuleGraph.Graph.Cluster
import ModuleGraph.Graph.Draft
import ModuleGraph.Graph.Ranking
import ModuleGraph.Graph.Statistics
import ModuleGraph.PageRank
import ModuleGraph.Session

namespace ModuleGraph

/-- What a build needs besides the files. -/
structure BuildOptions (K : Type) where
  resolve : ResolveOptions
  pageRank : PageRank.Parameters K
  bridgeCount : Nat
  genericSegments : List String

/-- A file with its declarations and the imports that land on nodes. -/
structure Parsed (K : Type) where
  file : FileRecord K
  declarations : Declarations
  imports : List ResolvedImport

namespace Graph

variable {K : Type}

/-- The imports of a file that land on nodes; a file that was not understood has none. -/
def resolveFile (t : FileTree) (resolver : Resolver) (index : NodeIndex) (p : Path)
    (d : Declarations) : List ResolvedImport :=
  if !d.isParsed then []
  else match t.family? p with
    | none => []
    | some family => Importer.landAll ⟨t, resolver, index, p, family⟩ d

/-- Reads the files one after the other, remembering their declarations. The files of a build are read side by side; this
is one of the orders in which that may happen. -/
def parseFiles (t : FileTree) (resolver : Resolver) (index : NodeIndex) :
    Session → List (FileRecord K) → List (Parsed K) × Session
  | s, [] => ([], s)
  | s, f :: fs =>
    let (d, s) := s.extract t f.absolutePath
    let (rest, s) := parseFiles t resolver index s fs
    (⟨f, d, resolveFile t resolver index f.absolutePath d⟩ :: rest, s)

def idOf (files : List (FileRecord K)) (i : Nat) : String :=
  (files[i]?.map FileRecord.id).getD ""

variable [Scalar K]

def drafts (parsed : List (Parsed K)) : List (Draft K) :=
  parsed.zipIdx.flatMap fun (p, source) => Draft.aggregate source p.imports

def assemble (options : BuildOptions K) (parsed : List (Parsed K)) : Graph K :=
  let files := parsed.map (·.file)
  let edges := drafts parsed
  let pairs := edges.map fun d => (d.source, d.target)
  let topology : Topology K :=
    .ofArcs files.length (edges.map fun d => ⟨d.source, d.target, d.weight⟩)
  let degree := degrees files.length pairs
  let ranks := (PageRank.compute topology options.pageRank).toArray
  let between := (Betweenness.compute topology).toArray
  let members := files.map fun f => (⟨f.id, f.directory⟩ : Cluster.Member)
  let clustered := Cluster.group members pairs options.genericSegments
  let nodes := (List.zip parsed clustered.2).zipIdx.map fun ((p, cluster), i) =>
    { id := p.file.id
      file := p.file
      cluster
      exports := p.declarations.exports
      metrics :=
        { inDegree := (degree.getD i {}).incoming
          outDegree := (degree.getD i {}).outgoing
          betweenness := between.getD i Scalar.zero
          pageRank := ranks.getD i Scalar.zero } : Node K }
  let cycles := (Component.cycles topology).map (·.map (idOf files))
  { nodes
    edges := edges.map fun d =>
      { source := idOf files d.source
        target := idOf files d.target
        importedNames := d.names
        isTypeOnly := d.isTypeOnly
        weight := d.weight }
    clusters := clustered.1
    cycles
    rankings := .compute nodes clustered.1 options.bridgeCount
    statistics := .compute (nodes.map (·.metrics)) edges.length clustered.1.length cycles.length }

/-- Builds the graph of some files with the help of what a session remembers. -/
def buildIn (t : FileTree) (s : Session) (files : List (FileRecord K)) (options : BuildOptions K) :
    Graph K × Session :=
  let index := NodeIndex.ofPaths (files.map (·.absolutePath))
  let (parsed, s) := parseFiles t (.ofOptions t options.resolve) index s files
  (assemble options parsed, s)

def build (t : FileTree) (files : List (FileRecord K)) (options : BuildOptions K) : Graph K :=
  (buildIn t {} files options).1

def empty : Graph K where
  nodes := []
  edges := []
  clusters := []
  cycles := []
  rankings := {}
  statistics := .compute [] 0 0 0

end Graph

end ModuleGraph
