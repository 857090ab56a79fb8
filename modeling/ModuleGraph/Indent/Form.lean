import ModuleGraph.Pattern

namespace ModuleGraph.Indent

open Pattern

def keyword (s : String) : Pattern :=
  .seq (text s) blanks1

def isNewline (c : Char) : Bool :=
  c == '\n'

/-- The rest of the line, which is not empty and ends the text. -/
def restOfLine (slot : Slot) : Pattern :=
  .seq (.part slot (run1 fun c => !isNewline c)) (.anchor .textEnd)

def isDottedChar (c : Char) : Bool :=
  Text.isWord c || c == '.'

/-- A module path: dots and then words and dots, or words and dots alone. -/
def modulePath : Pattern :=
  .part .source (.either (.seq (run1 (· == '.')) (run isDottedChar)) (run1 isDottedChar))

def fromImport : Pattern :=
  inOrder [keyword "from", modulePath, blanks1, keyword "import", restOfLine .names]

def plainImport : Pattern :=
  .seq (keyword "import") (restOfLine .names)

def dynamicImport : Pattern :=
  inOrder [
    .either (.seq (.anchor .wordEdge) (text "importlib.import_module"))
      (.seq (.anchor .wordEdge) (text "__import__")),
    blanks, .one (· == '('), blanks, .one Text.isQuote, .part .source (run1 isDottedChar),
    .one Text.isQuote]

def typeCheckingHeader : Pattern :=
  inOrder [
    keyword "if", optional (text "typing."), text "TYPE_CHECKING", blanks, .one (· == ':')]

def identifier : Pattern :=
  .seq (.one Text.isNameStart) (run Text.isWord)

def functionDefinition : Pattern :=
  inOrder [optional (keyword "async"), keyword "def", .part .name identifier]

def classDefinition : Pattern :=
  .seq (keyword "class") (.part .name identifier)

/-- The opening of a list of public names, up to its first closing bracket. -/
def publicNames : Pattern :=
  inOrder [
    text "__all__", blanks,
    optional (.seq (.one (· == ':')) (run (· != '='))),
    .either (text "+=") (text "="),
    blanks, .one (fun c => c == '[' || c == '('),
    .part .body (run fun c => c != ']' && c != ')')]

def quotedName : Pattern :=
  inOrder [.one Text.isQuote, .part .name identifier, .one Text.isQuote]

def assignSign : Pattern :=
  .seq (.one (· == '=')) (.either (.one (· != '=')) (.anchor .textEnd))

def annotatedAssignment : Pattern :=
  inOrder [.part .name identifier, blanks, .one (· == ':'), run (· != '='), assignSign]

def assignment : Pattern :=
  inOrder [
    .part .names (.seq identifier (.many true
      (inOrder [blanks, .one (· == ','), blanks, identifier]))),
    blanks, assignSign]

end ModuleGraph.Indent
