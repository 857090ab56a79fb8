import ModuleGraph.Text.Basic

namespace ModuleGraph.Curly

open Text

/-- A trimmed item of a name list: its words without an inline `type`, and whether that mark was there. -/
def stripTypeMark (item : List Char) : List Char × Bool :=
  match after? "type".toList item with
  | some (c :: rest) => if isBlank c then (trimStart (c :: rest), true) else (item, false)
  | _ => (item, false)

/-- The name an item has outside: `b` for `a as b`, else its first word. -/
def outerName (item : List Char) : List Char :=
  match words item with
  | _ :: second :: outer :: _ => if second = "as".toList then outer else firstWord item
  | _ => firstWord item

/-- What an import clause binds. -/
structure Clause where
  names : List (List Char) := []
  hasDefault : Bool := false
  hasNamespace : Bool := false
  allTypes : Bool := false
  deriving DecidableEq, Repr

/-- Whether a clause starts with a list or a star, so that it has no default binding. -/
def startsBare (s : List Char) : Bool :=
  startsWith s ['{'] || startsWith s ['*']

/-- The default binding of a clause, if it has one, and what follows it. -/
def splitDefault (clause : List Char) : Bool × List Char :=
  let s := trim clause
  if startsBare s then (false, s)
  else
    let head := upTo (· == ',') s
    (!(trim head).isEmpty, trim (s.drop (head.length + 1)))

/-- Reads an import clause: a default binding, a star, a list in braces, or a default and one of these. -/
def Clause.parse (clause : List Char) : Clause :=
  let (hasDefault, rest) := splitDefault clause
  let defaults := if hasDefault then ["default".toList] else []
  match rest with
  | '*' :: _ => { names := defaults ++ [['*']], hasDefault, hasNamespace := true }
  | '{' :: inner =>
    let items := (commaItems (upTo (· == '}') inner)).map stripTypeMark
    { names := defaults ++ items.map fun i => firstWord i.1
      hasDefault
      allTypes := !items.isEmpty && items.all (·.2) && !hasDefault }
  | _ => { names := defaults, hasDefault }

def stripBraces (s : List Char) : List Char :=
  let isBrace := fun c : Char => c == '{' || c == '}'
  dropEndWhile isBrace (s.dropWhile isBrace)

/-- The source-side names of a destructuring binding, without a rest element. -/
def boundNames (binding : List Char) : List (List Char) :=
  ((pieces (· == ',') (stripBraces binding)).map fun part => trim (upTo (· == ':') part)).filter
    fun n => !n.isEmpty && !startsWith n "...".toList

/-- The keys of an object literal that are plain names; a value that holds a brace ends the literal. -/
def objectKeys (literal : List Char) : List (List Char) :=
  ((pieces (· == ',') (stripBraces literal)).map fun entry =>
      trim (upTo (fun c => c == ':' || c == '(') entry)).filter
    fun key => !key.isEmpty && key.all fun c => isAlphanumeric c || c == '_' || c == '$'

end ModuleGraph.Curly
