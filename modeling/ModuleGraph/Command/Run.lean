import ModuleGraph.Command.Arguments
import ModuleGraph.Config
import ModuleGraph.FileTree.Discovery

namespace ModuleGraph

inductive Trouble where
  | config (cause : Failure)
  | scan (root : Path) (cause : Failure)
  | rendering (cause : Failure)
  deriving DecidableEq, Repr

namespace Trouble

/-- The messages from the outermost to the innermost cause. -/
def chain : Trouble → List String
  | .config cause => cause.chain
  | .scan root cause => ("failed to scan " ++ root.text) :: cause.chain
  | .rendering cause => cause.chain

def message (e : Trouble) : String :=
  ": ".intercalate e.chain

end Trouble

structure Report where
  rendering : List Char
  statistics : Statistics Float

namespace Report

def summary (r : Report) : String :=
  let s := r.statistics
  "strata: " ++ ", ".intercalate [
    s!"{s.nodeCount} files", s!"{s.edgeCount} edges", s!"{s.clusterCount} clusters",
    s!"{s.cycleCount} cycles"]

end Report

namespace Arguments

def projectRoot (a : Arguments) : Path :=
  a.root.getD ⟨"."⟩

/-- Reads the settings, finds the files, builds their graph and renders it. -/
def analyse (t : FileTree) (a : Arguments) : Except Trouble Report := do
  let root := a.projectRoot
  let config ← (Config.load t root).mapError .config
  let files ← (t.discover root).mapError (.scan root)
  let graph := Graph.build t files (.ofConfig root config)
  let maxNodes := a.maxNodes.getD config.exporting.diagramMaxNodes
  let rendering ← (graph.write (a.format.getD .graph) maxNodes).mapError .rendering
  return ⟨rendering, graph.statistics⟩

end Arguments

structure Outcome where
  code : Nat
  output : List Char := []
  diagnosis : List Char := []
  deriving DecidableEq, Repr

namespace Outcome

def helpLines : List String := [
  "Source dependency graph engine",
  "",
  "Usage: strata [OPTIONS] [ROOT]",
  "",
  "Arguments:",
  "  [ROOT]  Project root to analyse [default: .]",
  "",
  "Options:",
  "  -f, --format <FORMAT>  Output format: graph, node-link, mermaid or dot [default: graph]",
  "      --max-nodes <N>    Node cap for the mermaid diagram",
  "  -v, --verbose          Debug logging on stderr",
  "  -h, --help             Print help",
  "  -V, --version          Print version",
  ""]

def helpText : String := "\n".intercalate helpLines

def versionText : String := "strata 0.1.0\n"

def ofReport (r : Report) : Outcome :=
  { code := 0, output := r.rendering ++ ['\n'], diagnosis := (r.summary ++ "\n").toList }

def ofTrouble (e : Trouble) : Outcome :=
  { code := 1, diagnosis := ("error: " ++ e.message ++ "\n").toList }

def badUsage : Outcome :=
  { code := 2, diagnosis := "error: unexpected arguments; try '--help'\n".toList }

end Outcome

def Invocation.run (t : FileTree) : Invocation → Outcome
  | .help => { code := 0, output := Outcome.helpText.toList }
  | .version => { code := 0, output := Outcome.versionText.toList }
  | .analyse a =>
    match a.analyse t with
    | .ok report => .ofReport report
    | .error e => .ofTrouble e

def runCommand (t : FileTree) (args : List String) : Outcome :=
  match Invocation.ofArguments? args with
  | some i => i.run t
  | none => .badUsage

end ModuleGraph
