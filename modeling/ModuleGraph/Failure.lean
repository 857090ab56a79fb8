import ModuleGraph.Path

namespace ModuleGraph

inductive Failure where
  /-- A file could not be read. -/
  | unreadable (cause : String) (path : Path)
  /-- A configuration file does not hold a configuration. -/
  | badConfig (path : Path)
  /-- A document does not describe a graph, or there is none of a graph. -/
  | badDocument
  /-- A directory could not be walked. -/
  | walk (cause : String)
  | other (cause : String)
  deriving DecidableEq, Repr

namespace Failure

/-- The path named when it is not known which file could not be read. -/
def unknownPath : Path := ⟨"<unknown>"⟩

def notText (path : Path) : Failure :=
  .unreadable "stream did not contain valid UTF-8" path

def notDirectory (path : Path) : Failure :=
  .walk (path.text ++ " is not a directory")

def message : Failure → String
  | .unreadable cause path => "I/O error: " ++ cause ++ " (path: " ++ path.text ++ ")"
  | .badConfig path => "Invalid config " ++ path.text ++ ": malformed document"
  | .badDocument => "JSON error: malformed document"
  | .walk cause => "Walk error: " ++ cause
  | .other cause => "Generic error: " ++ cause

/-- The message and, for a failure that has one, the message of what caused it. -/
def chain : Failure → List String
  | .unreadable cause path => [message (.unreadable cause path), cause]
  | f => [f.message]

end Failure

end ModuleGraph
