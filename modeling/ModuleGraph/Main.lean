import ModuleGraph.Command.Run
import ModuleGraph.FileTree.Document

/-!
The command line. The file tree comes from standard input, as a JSON array of descriptions of its entries with
paths relative to the working directory.
-/

namespace ModuleGraph.CommandLine

def readInput : IO String := do
  let input ← IO.getStdin
  let mut content := ""
  repeat
    let line ← input.getLine
    if line.isEmpty then break
    content := content ++ line
  return content

def finish (outcome : Outcome) : IO UInt32 := do
  IO.print (String.ofList outcome.output)
  IO.eprint (String.ofList outcome.diagnosis)
  return outcome.code.toUInt32

/-- Runs the program; the file tree is read only for an analysis. -/
def run (args : List String) : IO UInt32 := do
  match Invocation.ofArguments? args with
  | none => finish .badUsage
  | some (.analyse a) =>
    match FileTree.ofText? (← readInput).toList with
    | some t => finish ((Invocation.analyse a).run t)
    | none => finish { code := 1, diagnosis := "error: malformed file tree\n".toList }
  | some i => finish (i.run {})

end ModuleGraph.CommandLine

def main (args : List String) : IO UInt32 :=
  ModuleGraph.CommandLine.run args
