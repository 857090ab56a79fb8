import ModuleGraph.Pattern

namespace ModuleGraph.Curly

open Pattern

/-- A place where a statement may start: a line start or a semicolon, then spaces and tabs. -/
def statementStart : Pattern :=
  .seq (.either (.anchor .lineStart) (.one (· == ';'))) (run fun c => c == ' ' || c == '\t')

def quotedSource : Pattern :=
  inOrder [
    .one Text.isQuote,
    .part .source (run1 fun c => !Text.isQuote c && c != '\n'),
    .one Text.isQuote]

def fromSource : Pattern :=
  inOrder [blanks, text "from", blanks, quotedSource]

def keyword (s : String) : Pattern :=
  .seq (text s) blanks1

def wholeWord (s : String) : Pattern :=
  .seq (text s) (.anchor .wordEdge)

def name (slot : Slot) : Pattern :=
  .part slot (run1 Text.isNameChar)

/-- A brace, everything up to the first closing brace, and that brace. -/
def braced (inner : Pattern → Pattern) : Pattern :=
  inOrder [.one (· == '{'), inner (run (· != '}')), .one (· == '}')]

def isClauseChar (c : Char) : Bool :=
  Text.isNameChar c || Text.isBlank c || c == '{' || c == '}' || c == ',' || c == '*'

/-- An import with a clause. A clause may consist of white space, which it takes from that before it; no more
than one character of it can make a difference. -/
def staticImport : Pattern :=
  inOrder [
    statementStart,
    .part .keyword (text "import"),
    looseBlanks1,
    optional (.part .typeMark (.seq (text "type") looseBlanks1)),
    .part .clause (lazyRun1 isClauseChar),
    fromSource]

def sideEffectImport : Pattern :=
  inOrder [statementStart, .part .keyword (text "import"), blanks, quotedSource]

/-- An opening parenthesis, a specifier and a closing parenthesis. -/
def callOfSource : Pattern :=
  inOrder [blanks, .one (· == '('), blanks, quotedSource, blanks, .one (· == ')')]

def requireCall : Pattern :=
  inOrder [
    optional (inOrder [
      oneOf (text "const") [text "let", text "var"],
      blanks1,
      .part .binding (.either (braced id) (run1 Text.isNameChar)),
      blanks, .one (· == '='), blanks]),
    .anchor .wordEdge, text "require", callOfSource]

def dynamicImport : Pattern :=
  inOrder [.anchor .wordEdge, text "import", callOfSource]

def exportHead : Pattern :=
  inOrder [statementStart, .part .keyword (text "export"), blanks1]

def declareMark : Pattern :=
  optional (keyword "declare")

def exportDefault : Pattern :=
  inOrder [
    exportHead, keyword "default",
    optional (.part .subject (oneOf (.seq (keyword "async") (wholeWord "function")) [
      wholeWord "function",
      .seq (keyword "abstract") (wholeWord "class"),
      wholeWord "class"]))]

def exportFunction : Pattern :=
  inOrder [
    exportHead, declareMark, optional (keyword "async"), text "function", blanks,
    optional (.one (· == '*')), blanks, name .name]

def exportClass : Pattern :=
  inOrder [exportHead, declareMark, optional (keyword "abstract"), keyword "class", name .name]

def exportVariable : Pattern :=
  inOrder [
    exportHead, declareMark, oneOf (text "const") [text "let", text "var"], blanks1, name .name]

def exportType : Pattern :=
  inOrder [exportHead, declareMark, keyword "type", name .name]

def exportInterface : Pattern :=
  inOrder [exportHead, declareMark, keyword "interface", name .name]

def exportEnum : Pattern :=
  inOrder [exportHead, declareMark, optional (keyword "const"), keyword "enum", name .name]

def exportList : Pattern :=
  inOrder [
    exportHead, optional (.part .typeMark (keyword "type")), braced (.part .names),
    optional fromSource]

/-- A star passed on. Its name ends where `from` can be read, even inside a word. -/
def exportStar : Pattern :=
  inOrder [
    exportHead, .one (· == '*'),
    optional (inOrder [blanks1, text "as", blanks1, .part .name (eagerRun1 Text.isNameChar)]),
    fromSource]

def moduleExports : Pattern :=
  inOrder [
    statementStart, .part .keyword (text "module.exports"), blanks, .one (· == '='), blanks,
    optional (.part .value (oneOf (braced id) [
      .seq (keyword "async") (wholeWord "function"),
      wholeWord "function",
      wholeWord "class"]))]

def exportsProperty : Pattern :=
  inOrder [
    statementStart,
    .part .keyword (.seq (optional (text "module.")) (text "exports")),
    .one (· == '.'), name .name, blanks, .one (· == '='), blanks,
    .part .value (.seq (.one fun c => c != '=' && !Text.isBlank c) (run (· != '\n')))]

end ModuleGraph.Curly
