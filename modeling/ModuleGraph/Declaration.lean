import ModuleGraph.Specifier

namespace ModuleGraph

/-- One import: a statement, a `require` or a dynamic import. -/
structure Import where
  source : String
  origin : Origin
  names : List String := []
  hasDefault : Bool := false
  hasNamespace : Bool := false
  isTypeOnly : Bool := false
  isDynamic : Bool := false
  line : Nat
  deriving DecidableEq, Repr

def Import.whole (i : Import) : Import :=
  { i with hasNamespace := true, names := ["*"] }

inductive ExportKind where
  | function
  | classDefinition
  | variable
  | type
  | interface
  | enum
  | unknown
  deriving DecidableEq, Repr

structure Export where
  name : String
  isDefault : Bool
  isType : Bool
  isReExport : Bool
  reExportSource : Option String
  kind : ExportKind
  line : Nat
  deriving DecidableEq, Repr

namespace Export

def named (name : String) (kind : ExportKind) (line : Nat) : Export where
  name
  isDefault := name == "default"
  isType := kind = .type ∨ kind = .interface
  isReExport := false
  reExportSource := none
  kind
  line

def passedOn (name source : String) (line : Nat) : Export :=
  { named name .unknown line with isReExport := true, reExportSource := some source }

end Export

/-- All that was learned about one file. -/
structure Declarations where
  imports : List Import := []
  exports : List Export := []
  errors : List String := []
  deriving DecidableEq, Repr

namespace Declarations

/-- The declarations of a file that could not be taken in. -/
def failed (message : String) : Declarations :=
  { errors := [message] }

def isParsed (d : Declarations) : Bool :=
  d.errors.isEmpty

end Declarations

end ModuleGraph
