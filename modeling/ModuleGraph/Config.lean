import ModuleGraph.Failure
import ModuleGraph.Graph.Build
import ModuleGraph.Toml.Read

namespace ModuleGraph

structure ResolveConfig where
  extensions : List String := ResolveOptions.defaultExtensions
  useTsconfig : Bool := true
  deriving Repr

/-- Directory names that say nothing about what is in them. -/
def defaultGenericSegments : List String :=
  ["src", "lib", "app", "source", "sources", "pkg", "packages", "modules", "internal", "code"]

structure GraphConfig where
  damping : Float := PageRank.Parameters.standard.damping
  maxIterations : Nat := (PageRank.Parameters.standard : PageRank.Parameters Float).maxIterations
  tolerance : Float := PageRank.Parameters.standard.tolerance
  bridgeCount : Nat := 10
  genericSegments : List String := defaultGenericSegments
  deriving Repr

structure ExportConfig where
  diagramMaxNodes : Nat := 50
  deriving Repr

structure Config where
  resolve : ResolveConfig := {}
  graph : GraphConfig := {}
  exporting : ExportConfig := {}
  deriving Repr

namespace Config

open Toml

def readResolve? (v : Toml) : Option ResolveConfig := do
  let [extensions, useTsconfig] ← v.fields? ["extensions", "use_tsconfig"] | none
  let default : ResolveConfig := {}
  return {
    extensions := ← withDefault default.extensions texts? extensions
    useTsconfig := ← withDefault default.useTsconfig bool? useTsconfig }

def readGraph? (v : Toml) : Option GraphConfig := do
  let [damping, maxIterations, tolerance, bridgeCount, genericSegments] ← v.fields? [
    "damping", "max_iterations", "tolerance", "bridge_count", "generic_segments"] | none
  let default : GraphConfig := {}
  return {
    damping := ← withDefault default.damping float? damping
    maxIterations := ← withDefault default.maxIterations count? maxIterations
    tolerance := ← withDefault default.tolerance float? tolerance
    bridgeCount := ← withDefault default.bridgeCount count? bridgeCount
    genericSegments := ← withDefault default.genericSegments texts? genericSegments }

def readExport? (v : Toml) : Option ExportConfig := do
  let [diagramMaxNodes] ← v.fields? ["diagram_max_nodes"] | none
  let default : ExportConfig := {}
  return { diagramMaxNodes := ← withDefault default.diagramMaxNodes count? diagramMaxNodes }

/-- The settings that a document holds; unknown keys are skipped. -/
def ofToml? (v : Toml) : Option Config := do
  let [resolve, graph, exporting] ← v.fields? ["resolve", "graph", "export"] | none
  return {
    resolve := ← withDefault {} readResolve? resolve
    graph := ← withDefault {} readGraph? graph
    exporting := ← withDefault {} readExport? exporting }

def parse? (s : List Char) : Option Config := do
  ofToml? (← Toml.parse? s)

def fileName : String := "strata.toml"

/-- The settings of the project at a root; a project without a settings file has the defaults. -/
def load (t : FileTree) (root : Path) : Except Failure Config :=
  let path := root.join ⟨fileName⟩
  match t.read? path with
  | none => .ok {}
  | some bytes =>
    match Utf8.decode? bytes with
    | none => .error (.notText path)
    | some content =>
      match parse? content with
      | none => .error (.badConfig path)
      | some config => .ok config

end Config

namespace GraphConfig

def pageRank (c : GraphConfig) : PageRank.Parameters Float :=
  { damping := c.damping, maxIterations := c.maxIterations, tolerance := c.tolerance }

end GraphConfig

namespace BuildOptions

/-- The options that settings give for a project directory. -/
def ofConfig (root : Path) (c : Config) : BuildOptions Float where
  resolve :=
    { baseDir := root, extensions := c.resolve.extensions, useTsconfig := c.resolve.useTsconfig }
  pageRank := c.graph.pageRank
  bridgeCount := c.graph.bridgeCount
  genericSegments := c.graph.genericSegments

end BuildOptions

end ModuleGraph
