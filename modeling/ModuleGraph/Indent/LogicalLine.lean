import ModuleGraph.Text.Basic

namespace ModuleGraph.Indent

/-- A logical line: the number and indentation of its first physical line, and its joined text. -/
structure LogicalLine where
  line : Nat
  indent : Nat
  text : List Char
  deriving DecidableEq, Repr

/-- Where a bracket count stands: outside a literal, or inside one and perhaps after a backslash. -/
inductive QuoteState where
  | outside
  | inside (quote : Char)
  | escaped (quote : Char)
  deriving DecidableEq, Repr

def QuoteState.next : QuoteState → Char → QuoteState
  | .outside, c => if Text.isQuote c then .inside c else .outside
  | .inside q, c => if c = '\\' then .escaped q else if c = q then .outside else .inside q
  | .escaped q, _ => .inside q

/-- What one character adds to the bracket depth outside a literal. A depth has 32 bits and wraps around. -/
def bracketStep (c : Char) : Int32 :=
  if c = '(' ∨ c = '[' ∨ c = '{' then 1
  else if c = ')' ∨ c = ']' ∨ c = '}' then -1
  else 0

def bracketDeltaFrom : QuoteState → List Char → Int32
  | _, [] => 0
  | state, c :: cs =>
    (if state = .outside then bracketStep c else 0) + bracketDeltaFrom (state.next c) cs

/-- Opening minus closing brackets of a line, without those inside quotes. -/
def bracketDelta (line : List Char) : Int32 :=
  bracketDeltaFrom .outside line

/-- A physical line without the white space at its end and the backslashes before it. -/
structure PhysicalLine where
  body : List Char
  continued : Bool

def PhysicalLine.ofRaw (raw : List Char) : PhysicalLine :=
  let trimmed := Text.trimEnd raw
  { body := Text.dropEndWhile (· == '\\') trimmed, continued := Text.endsWith trimmed ['\\'] }

/-- The width in bytes of the white space at the start of a line. -/
def indentOf (body : List Char) : Nat :=
  Text.byteLength (body.takeWhile Text.isBlank)

/-- Where joining stands: the bracket depth and the logical line that is still open. -/
structure Joining where
  depth : Int32 := 0
  pending : Option LogicalLine := none

/-- The open line with one more physical line, or a line that starts with it; a blank line starts none. -/
def LogicalLine.extend? (pending : Option LogicalLine) (number : Nat) (body : List Char) :
    Option LogicalLine :=
  match pending with
  | some l => some { l with text := l.text ++ ' ' :: Text.trim body }
  | none =>
    if (Text.trim body).isEmpty then none
    else some { line := number, indent := indentOf body, text := Text.trim body }

/-- Joins physical lines, of which the first has the given number. -/
def joinLines (state : Joining) (number : Nat) : List (List Char) → List LogicalLine
  | [] => state.pending.toList
  | raw :: rest =>
    let physical := PhysicalLine.ofRaw raw
    match LogicalLine.extend? state.pending number physical.body with
    | none => joinLines state (number + 1) rest
    | some current =>
      let depth := state.depth + bracketDelta physical.body
      if depth > 0 || physical.continued then
        joinLines { depth, pending := some current } (number + 1) rest
      else current :: joinLines {} (number + 1) rest

def logicalLines (text : List Char) : List LogicalLine :=
  joinLines {} 1 (Text.lines text)

end ModuleGraph.Indent
