import ModuleGraph.Comment
import ModuleGraph.Declaration
import ModuleGraph.Indent.Form
import ModuleGraph.Indent.LogicalLine
import ModuleGraph.Order.StableSort

namespace ModuleGraph.Indent

/-- An import of a source on a line, with no names yet. -/
def importOn (line : Nat) (source : List Char) : Import :=
  let source := String.ofList source
  { source, origin := Specifier.origin .indent source, line }

/-- The statements of a logical line, which semicolons divide. A line with a quote is left whole, since a
semicolon may stand inside a literal. -/
def splitStatements (s : List Char) : List (List Char) :=
  if s.any Text.isQuote then [s]
  else ((Text.pieces (· == ';') s).map Text.trim).filter fun p => !p.isEmpty

/-- The source-side names of a from-import, inside parentheses or not. -/
def importedNames (list : List Char) : List (List Char) :=
  let bare := Text.dropEndWhile (· == ')') ((Text.trim list).dropWhile (· == '('))
  (Text.commaItems bare).map Text.firstWord

/-- The modules of a plain import: the first word of each item, if it is a dotted name. -/
def importedModules (list : List Char) : List (List Char) :=
  ((Text.pieces (· == ',') list).map fun item => Text.firstWord (Text.trim item)).filter
    fun m => !m.isEmpty && m.all fun c => Text.isAlphanumeric c || c == '_' || c == '.'

def statementImports (line : Nat) (typeOnly : Bool) (s : List Char) : List Import :=
  match fromImport.matchStart s with
  | some m =>
    let names := (importedNames (m.textOf .names)).map String.ofList
    [{ importOn line (m.textOf .source) with
      names, hasNamespace := names.any (· == "*"), isTypeOnly := typeOnly }]
  | none =>
    match plainImport.matchStart s with
    | some m =>
      (importedModules (m.textOf .names)).map fun source =>
        { (importOn line source).whole with isTypeOnly := typeOnly }
    | none => []

def dynamicImports (line : Nat) (s : List Char) : List Import :=
  (dynamicImport.matchesIn s).map fun m =>
    { (importOn line (m.textOf .source)).whole with isDynamic := true }

/-- A top-level binding, before it is decided whether it is public. -/
structure Binding where
  name : String
  kind : ExportKind
  line : Nat
  deriving DecidableEq, Repr

/-- Words that look like annotated names at the head of a one-line compound statement. -/
def compoundHeads : List String := [
  "else", "elif", "except", "finally", "for", "if", "try", "while", "with", "lambda", "match",
  "case"]

def bindings (line : Nat) (s : List Char) : List Binding :=
  let single := fun (m : Match) (kind : ExportKind) => [⟨String.ofList (m.textOf .name), kind, line⟩]
  match functionDefinition.matchStart s with
  | some m => single m .function
  | none =>
    match classDefinition.matchStart s with
    | some m => single m .classDefinition
    | none =>
      match annotatedAssignment.matchStart s with
      | some m =>
        if String.ofList (m.textOf .name) ∈ compoundHeads then [] else single m .variable
      | none =>
        match assignment.matchStart s with
        | some m =>
          (Text.pieces (· == ',') (m.textOf .names)).map fun n =>
            ⟨String.ofList (Text.trim n), .variable, line⟩
        | none => []

/-- What a logical line adds to the exports of its file. -/
inductive Visible where
  | bound (bs : List Binding)
  | listed (line : Nat) (names : List String)

/-- What a top-level statement makes visible: names of a public list, or bindings. -/
def visibleOf (line : Nat) (s : List Char) : Visible :=
  match publicNames.matchStart s with
  | some m =>
    .listed line ((quotedName.matchesIn (m.textOf .body)).map fun q => String.ofList (q.textOf .name))
  | none => .bound (bindings line s)

/-- What has been read so far: imports, bindings, the public names with the line of the last list of them,
and the indentation of an open type-checking block. -/
structure Scan where
  imports : List Import := []
  bound : List Binding := []
  listed : List String := []
  listLine : Nat := 0
  typeBlock : Option Nat := none

/-- The type-checking block that is still open on a line of the given indentation. -/
def openBlock (block : Option Nat) (indent : Nat) : Option Nat :=
  block.filter (· < indent)

def Scan.see (scan : Scan) : Visible → Scan
  | .bound bs => { scan with bound := scan.bound ++ bs }
  | .listed line names => { scan with listed := scan.listed ++ names, listLine := line }

def Scan.step (scan : Scan) (l : LogicalLine) : Scan :=
  let block := openBlock scan.typeBlock l.indent
  let s := Text.trim l.text
  if (typeCheckingHeader.matchStart s).isSome then { scan with typeBlock := some l.indent }
  else
    let found := (splitStatements s).flatMap (statementImports l.line block.isSome)
      ++ dynamicImports l.line s
    let scan := { scan with imports := scan.imports ++ found, typeBlock := block }
    if l.indent > 0 then scan else scan.see (visibleOf l.line s)

/-- The bindings that count: the first one of each name that is public by its spelling or by a list. -/
def publicBindings (listed : List String) : (seen : List String) → List Binding → List Binding
  | _, [] => []
  | seen, b :: bs =>
    let isPublic := !Text.startsWith b.name.toList ['_'] || b.name ∈ listed
    if isPublic && b.name ∉ seen then b :: publicBindings listed (b.name :: seen) bs
    else publicBindings listed seen bs

/-- The listed names that are not among those seen, each once. -/
def unboundNames : (seen : List String) → List String → List String
  | _, [] => []
  | seen, n :: ns =>
    if n ∈ seen then unboundNames seen ns else n :: unboundNames (n :: seen) ns

/-- The exports of a file in line order: its public bindings, then names that are only listed. -/
def Scan.exports (scan : Scan) : List Export :=
  let shown := publicBindings scan.listed [] scan.bound
  let rest := unboundNames (shown.map (·.name)) scan.listed
  sortOn (·.line)
    (shown.map (fun b => .named b.name b.kind b.line)
      ++ rest.map fun n => .named n .unknown scan.listLine)

def extract (source : List Char) : Declarations :=
  let scan := (logicalLines (Comment.stripHash source)).foldl Scan.step {}
  { imports := scan.imports, exports := scan.exports }

end ModuleGraph.Indent
