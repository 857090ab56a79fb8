import ModuleGraph.Text.Basic

/-!
Blanking of comments. A comment is overwritten with one space per UTF-8 byte and its newlines are kept, so
byte offsets and line numbers of the blanked text are those of the text it came from. String literals are
followed, so that a comment mark inside a literal is left alone.
-/

namespace ModuleGraph.Comment

def blank (c : Char) : List Char :=
  if c = '\n' then ['\n'] else List.replicate c.utf8Size ' '

/-- Where a scan of curly-brace source stands. -/
inductive CurlyMode where
  | code
  | lineComment
  | blockComment
  | literal (quote : Char)
  deriving DecidableEq, Repr

/-- The mode after a character of code that opens no comment. -/
def CurlyMode.afterCode (c : Char) : CurlyMode :=
  if c = '\'' ∨ c = '"' ∨ c = '`' then .literal c else .code

/-- The mode after an unescaped character of a literal. Only a backtick literal may hold a newline. -/
def CurlyMode.afterLiteral (quote c : Char) : CurlyMode :=
  if c = quote ∨ (c = '\n' ∧ quote ≠ '`') then .code else .literal quote

/-- Blanks the line and block comments of curly-brace source, starting in the given mode. -/
def stripCurlyFrom : CurlyMode → List Char → List Char
  | _, [] => []
  | .code, '/' :: '/' :: cs => ' ' :: ' ' :: stripCurlyFrom .lineComment cs
  | .code, '/' :: '*' :: cs => ' ' :: ' ' :: stripCurlyFrom .blockComment cs
  | .code, c :: cs => c :: stripCurlyFrom (.afterCode c) cs
  | .lineComment, c :: cs =>
    blank c ++ stripCurlyFrom (if c = '\n' then .code else .lineComment) cs
  | .blockComment, '*' :: '/' :: cs => ' ' :: ' ' :: stripCurlyFrom .code cs
  | .blockComment, c :: cs => blank c ++ stripCurlyFrom .blockComment cs
  | .literal quote, '\\' :: c :: cs => '\\' :: c :: stripCurlyFrom (.literal quote) cs
  | .literal quote, c :: cs => c :: stripCurlyFrom (.afterLiteral quote c) cs

/-- Blanks the line and block comments of curly-brace source. -/
def stripCurly (s : List Char) : List Char :=
  stripCurlyFrom .code s

/-- Where a scan of indentation-family source stands. -/
inductive HashMode where
  | code
  | comment
  | literal (quote : Char)
  | docstring (quote : Char)
  deriving DecidableEq, Repr

/-- The mode after a character of code that opens neither a comment nor a triple-quoted string. -/
def HashMode.afterCode (c : Char) : HashMode :=
  if c = '\'' ∨ c = '"' then .literal c else .code

/-- The mode after an unescaped character of a single-line literal. -/
def HashMode.afterLiteral (quote c : Char) : HashMode :=
  if c = quote ∨ c = '\n' then .code else .literal quote

/-- Blanks the hash comments and triple-quoted strings of indentation-family source, starting in the given
mode. A triple-quoted string knows no escapes: the first matching triple ends it. -/
def stripHashFrom : HashMode → List Char → List Char
  | _, [] => []
  | .code, '#' :: cs => ' ' :: stripHashFrom .comment cs
  | .code, '\'' :: '\'' :: '\'' :: cs => ' ' :: ' ' :: ' ' :: stripHashFrom (.docstring '\'') cs
  | .code, '"' :: '"' :: '"' :: cs => ' ' :: ' ' :: ' ' :: stripHashFrom (.docstring '"') cs
  | .code, c :: cs => c :: stripHashFrom (.afterCode c) cs
  | .comment, c :: cs => blank c ++ stripHashFrom (if c = '\n' then .code else .comment) cs
  | .literal quote, '\\' :: c :: cs => '\\' :: c :: stripHashFrom (.literal quote) cs
  | .literal quote, c :: cs => c :: stripHashFrom (.afterLiteral quote c) cs
  | .docstring quote, c :: cs =>
    match cs with
    | d :: e :: rest =>
      if c = quote ∧ d = quote ∧ e = quote then
        ' ' :: ' ' :: ' ' :: stripHashFrom .code rest
      else blank c ++ stripHashFrom (.docstring quote) (d :: e :: rest)
    | rest => blank c ++ stripHashFrom (.docstring quote) rest

/-- Blanks the hash comments and triple-quoted strings of indentation-family source. -/
def stripHash (s : List Char) : List Char :=
  stripHashFrom .code s

end ModuleGraph.Comment
