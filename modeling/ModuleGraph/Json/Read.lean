import ModuleGraph.Json.Basic

namespace ModuleGraph.Json

def isSpace (c : Char) : Bool :=
  c == ' ' || c == '\n' || c == '\t' || c == '\r'

def skipSpace (s : List Char) : List Char :=
  s.dropWhile isSpace

/-- The spelling of a string up to its closing quote, and what follows the quote. -/
def readSpelling : List Char → Option (List Char × List Char)
  | [] => none
  | '"' :: rest => some ([], rest)
  | '\\' :: 'u' :: a :: b :: c :: d :: rest => do
    let _ ← Text.hexNumber? [a, b, c, d]
    let (spelling, rest) ← readSpelling rest
    return ('\\' :: 'u' :: a :: b :: c :: d :: spelling, rest)
  | '\\' :: c :: rest => do
    let _ ← shortEscape? c
    let (spelling, rest) ← readSpelling rest
    return ('\\' :: c :: spelling, rest)
  | c :: rest =>
    if c = '\\' ∨ c.toNat < 0x20 then none
    else do
      let (spelling, rest) ← readSpelling rest
      return (c :: spelling, rest)

def spanDigits (s : List Char) : List Char × List Char :=
  s.span Char.isDigit

def readDigits (s : List Char) : Option (List Char × List Char) :=
  match spanDigits s with
  | ([], _) => none
  | found => some found

def readWhole (s : List Char) : Option (List Char × List Char) :=
  match readDigits s with
  | some ('0' :: _ :: _, _) => none
  | found => found

def readFraction : List Char → Option (List Char × List Char)
  | '.' :: rest => (readDigits rest).map fun (ds, rest) => ('.' :: ds, rest)
  | rest => some ([], rest)

def readSign : List Char → List Char × List Char
  | '+' :: rest => (['+'], rest)
  | '-' :: rest => (['-'], rest)
  | rest => ([], rest)

def readExponent : List Char → Option (List Char × List Char)
  | [] => some ([], [])
  | e :: rest =>
    if e = 'e' ∨ e = 'E' then
      let (sign, rest) := readSign rest
      (readDigits rest).map fun (ds, rest) => (e :: sign ++ ds, rest)
    else some ([], e :: rest)

def readNumber (s : List Char) : Option (List Char × List Char) := do
  let (sign, s) := match s with
    | '-' :: rest => (['-'], rest)
    | rest => ([], rest)
  let (whole, s) ← readWhole s
  let (fraction, s) ← readFraction s
  let (exponent, s) ← readExponent s
  return (sign ++ whole ++ fraction ++ exponent, s)

/-- The spelling of a member's key, and what follows its colon. -/
def readKey (s : List Char) : Option (List Char × List Char) := do
  let '"' :: s := skipSpace s | none
  let (key, s) ← readSpelling s
  let ':' :: s := skipSpace s | none
  return (key, s)

mutual

def readValue : (fuel : Nat) → List Char → Option (Json × List Char)
  | 0, _ => none
  | fuel + 1, s =>
    match skipSpace s with
    | '"' :: s => (readSpelling s).map fun (spelling, s) => (.string spelling, s)
    | '[' :: s =>
      match skipSpace s with
      | ']' :: s => some (.array [], s)
      | s => (readItems fuel s).map fun (items, s) => (.array items, s)
    | '{' :: s =>
      match skipSpace s with
      | '}' :: s => some (.object [], s)
      | s => (readMembers fuel s).map fun (members, s) => (.object members, s)
    | 'n' :: 'u' :: 'l' :: 'l' :: s => some (.null, s)
    | 't' :: 'r' :: 'u' :: 'e' :: s => some (.bool true, s)
    | 'f' :: 'a' :: 'l' :: 's' :: 'e' :: s => some (.bool false, s)
    | s => (readNumber s).map fun (spelling, s) => (.number spelling, s)

def readItems : (fuel : Nat) → List Char → Option (List Json × List Char)
  | 0, _ => none
  | fuel + 1, s => do
    let (item, s) ← readValue fuel s
    match skipSpace s with
    | ',' :: s =>
      let (items, s) ← readItems fuel s
      return (item :: items, s)
    | ']' :: s => return ([item], s)
    | _ => none

def readMembers : (fuel : Nat) → List Char → Option (List (List Char × Json) × List Char)
  | 0, _ => none
  | fuel + 1, s => do
    let (key, s) ← readKey s
    let (value, s) ← readValue fuel s
    match skipSpace s with
    | ',' :: s =>
      let (members, s) ← readMembers fuel s
      return ((key, value) :: members, s)
    | '}' :: s => return ([(key, value)], s)
    | _ => none

end

/-- Reads a whole text as one document. Every step reads a character or goes one level into a value that
does, so twice the length bounds the depth of the reading. -/
def parse? (s : List Char) : Option Json := do
  let (j, rest) ← readValue (2 * s.length + 2) s
  if (skipSpace rest).isEmpty then some j else none

end ModuleGraph.Json
