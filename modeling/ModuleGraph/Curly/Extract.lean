import ModuleGraph.Comment
import ModuleGraph.Curly.Clause
import ModuleGraph.Curly.Form
import ModuleGraph.Declaration
import ModuleGraph.Order.StableSort

namespace ModuleGraph.Curly

/-- Something found at a byte offset of the text. -/
structure Found (α : Type) where
  offset : Nat
  item : α

def inSourceOrder {α : Type} (found : List (Found α)) : List α :=
  (sortOn (·.offset) found).map (·.item)

/-- An import of a source at a byte offset of the text, with no names yet. -/
def importAt (text : List Char) (offset : Nat) (source : List Char) : Import :=
  let source := String.ofList source
  { source, origin := Specifier.origin .curly source, line := Text.lineAt text offset }

def strings (names : List (List Char)) : List String :=
  names.map String.ofList

def staticImports (text : List Char) : List (Found Import) :=
  (staticImport.matchesIn text).map fun m =>
    let offset := m.startOf .keyword
    let clause := Clause.parse (m.textOf .clause)
    ⟨offset, { importAt text offset (m.textOf .source) with
      names := strings clause.names
      hasDefault := clause.hasDefault
      hasNamespace := clause.hasNamespace
      isTypeOnly := (m.part? .typeMark).isSome || clause.allTypes }⟩

def sideEffectImports (text : List Char) : List (Found Import) :=
  (sideEffectImport.matchesIn text).map fun m =>
    let offset := m.startOf .keyword
    ⟨offset, importAt text offset (m.textOf .source)⟩

/-- What a `require` binds: the names of a destructuring, the module itself, or nothing. -/
def bindRequired (i : Import) : Option (List Char) → Import
  | none => i
  | some binding =>
    if Text.startsWith binding ['{'] then { i with names := strings (boundNames binding) }
    else { i with hasDefault := true, names := ["default"] }

def requireCalls (text : List Char) : List (Found Import) :=
  (requireCall.matchesIn text).map fun m =>
    let offset := m.startOf .binding
    ⟨offset, bindRequired (importAt text offset (m.textOf .source)) (m.text? .binding)⟩

def dynamicImports (text : List Char) : List (Found Import) :=
  (dynamicImport.matchesIn text).map fun m =>
    let offset := m.startOf .source
    ⟨offset, { (importAt text offset (m.textOf .source)).whole with isDynamic := true }⟩

def exportAt (text : List Char) (offset : Nat) (name : List Char) (kind : ExportKind) : Found Export :=
  ⟨offset, .named (String.ofList name) kind (Text.lineAt text offset)⟩

/-- The kind of a default export, told from the keywords after it. -/
def subjectKind : Option (List Char) → ExportKind
  | none => .unknown
  | some subject => if Text.endsWith subject "function".toList then .function else .classDefinition

def defaultExports (text : List Char) : List (Found Export) :=
  (exportDefault.matchesIn text).map fun m =>
    exportAt text (m.startOf .keyword) "default".toList (subjectKind (m.text? .subject))

/-- The forms that declare one name, with the kind of thing they declare. -/
def declarationForms : List (Pattern × ExportKind) := [
  (exportFunction, .function),
  (exportClass, .classDefinition),
  (exportVariable, .variable),
  (exportType, .type),
  (exportInterface, .interface),
  (exportEnum, .enum)]

/-- The exports of one declaration form. A constant enumeration is left to the form of enumerations. -/
def declaredExports (text : List Char) (form : Pattern × ExportKind) : List (Found Export) :=
  ((form.1.matchesIn text).filter fun m =>
      !(form.2 = .variable ∧ m.textOf .name = "enum".toList)).map fun m =>
    exportAt text (m.startOf .keyword) (m.textOf .name) form.2

structure Listed where
  inner : List Char
  outer : List Char
  isType : Bool

/-- The names of an export list; a mark on the statement makes all of them types. -/
def listedNames (m : Match) : List Listed :=
  let allTypes := (m.part? .typeMark).isSome
  (Text.commaItems (m.textOf .names)).map fun item =>
    let (spec, marked) := stripTypeMark item
    ⟨Text.firstWord spec, outerName spec, allTypes || marked⟩

/-- The export of one listed name, passed on if the list has a source. -/
def listedExport (text : List Char) (offset : Nat) (source : Option (List Char)) (n : Listed) :
    Found Export :=
  let line := Text.lineAt text offset
  let made := match source with
    | some s => Export.passedOn (String.ofList n.outer) (String.ofList s) line
    | none => Export.named (String.ofList n.outer) .unknown line
  ⟨offset, { made with isType := n.isType }⟩

def listExports (text : List Char) : List (Found Export) :=
  (exportList.matchesIn text).flatMap fun m =>
    (listedNames m).map (listedExport text (m.startOf .keyword) (m.text? .source))

def listImport (text : List Char) (m : Match) (source : List Char) : Found Import :=
  let offset := m.startOf .keyword
  let listed := listedNames m
  let names := strings (listed.map (·.inner))
  ⟨offset, { importAt text offset source with
    names
    hasDefault := names.any (· == "default")
    isTypeOnly := !listed.isEmpty && listed.all (·.isType) }⟩

def listImports (text : List Char) : List (Found Import) :=
  (exportList.matchesIn text).filterMap fun m => (m.text? .source).map (listImport text m)

def starExports (text : List Char) : List (Found Export) :=
  (exportStar.matchesIn text).map fun m =>
    let offset := m.startOf .keyword
    let name := (m.text? .name).getD ['*']
    ⟨offset, .passedOn (String.ofList name) (String.ofList (m.textOf .source))
      (Text.lineAt text offset)⟩

def starImports (text : List Char) : List (Found Import) :=
  (exportStar.matchesIn text).map fun m =>
    let offset := m.startOf .keyword
    ⟨offset, (importAt text offset (m.textOf .source)).whole⟩

/-- The exports of an assignment to `module.exports`: the keys of an object literal, or the module itself. -/
def assignedExports (text : List Char) (offset : Nat) (value : Option (List Char)) :
    List (Found Export) :=
  let itself := [exportAt text offset "default".toList (subjectKind value)]
  match value with
  | some ('{' :: rest) =>
    (objectKeys ('{' :: rest)).map fun key => exportAt text offset key .unknown
  | _ => itself

def moduleAssignments (text : List Char) : List (Found Export) :=
  (moduleExports.matchesIn text).flatMap fun m =>
    assignedExports text (m.startOf .keyword) (m.text? .value)

/-- The kind of a value assigned to a property of `exports`, told from its first words. -/
def valueKind (value : List Char) : ExportKind :=
  let s := Text.trimStart value
  if Text.startsWith s "function".toList || Text.startsWith s "async function".toList then .function
  else if Text.startsWith s "class".toList then .classDefinition
  else .unknown

def propertyAssignments (text : List Char) : List (Found Export) :=
  (exportsProperty.matchesIn text).map fun m =>
    exportAt text (m.startOf .keyword) (m.textOf .name) (valueKind (m.textOf .value))

def foundImports (text : List Char) : List (Found Import) :=
  staticImports text ++ sideEffectImports text ++ requireCalls text ++ dynamicImports text
    ++ listImports text ++ starImports text

def foundExports (text : List Char) : List (Found Export) :=
  defaultExports text ++ declarationForms.flatMap (declaredExports text) ++ listExports text
    ++ starExports text ++ moduleAssignments text ++ propertyAssignments text

def extract (source : List Char) : Declarations :=
  let text := Comment.stripCurly source
  { imports := inSourceOrder (foundImports text), exports := inSourceOrder (foundExports text) }

end ModuleGraph.Curly
