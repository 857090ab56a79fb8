import ModuleGraph.Toml.Scalar

namespace ModuleGraph.Toml

/-- How deep values may be nested and how many parts a key may have. -/
def nestingLimit : Nat := 80

def afterComment? : List Char → Option (List Char)
  | '#' :: rest =>
    let rest := rest.dropWhile isPlain
    match rest with
    | [] => some []
    | _ => if (afterNewline? rest).isSome then some rest else none
  | rest => some rest

/-- What follows the end of a line: white space, a comment, and a line end or the end of the text. -/
def afterLine? (s : List Char) : Option (List Char) := do
  let rest ← afterComment? (skipSpace s)
  if rest.isEmpty then some [] else afterNewline? rest

def skipTrivia : (fuel : Nat) → List Char → Option (List Char)
  | 0, s => some s
  | fuel + 1, s =>
    match skipBlankLines s with
    | '#' :: rest => (afterComment? ('#' :: rest)).bind (skipTrivia fuel)
    | rest => some rest

def isKeyChar (c : Char) : Bool :=
  c.isAlphanum || c == '_' || c == '-'

def readKeyPart (s : List Char) : Option (String × List Char) :=
  match s with
  | '"' :: rest => (readBasic (rest.length + 1) rest).map fun (cs, rest) => (String.ofList cs, rest)
  | '\'' :: rest => (readLiteral rest).map fun (cs, rest) => (String.ofList cs, rest)
  | _ =>
    let bare := s.takeWhile isKeyChar
    if bare.isEmpty then none else some (String.ofList bare, s.drop bare.length)

/-- The parts of a key, which dots divide; white space may stand around each of them. -/
def readKeyParts : (fuel : Nat) → Reader (List String)
  | 0, _ => none
  | fuel + 1, s => do
    let (part, s) ← readKeyPart (skipSpace s)
    match skipSpace s with
    | '.' :: rest =>
      let (parts, rest) ← readKeyParts fuel rest
      return (part :: parts, rest)
    | rest => return ([part], rest)

def readKey (s : List Char) : Option (List String × List Char) := do
  let (parts, rest) ← readKeyParts (s.length + 1) s
  if nestingLimit ≤ parts.length then none else some (parts, rest)

mutual

def readValue : (fuel level : Nat) → Reader Toml
  | 0, _, _ => none
  | fuel + 1, level, s =>
    match s with
    | [] => none
    | c :: rest =>
      if c = '"' ∨ c = '\'' then (readString s).map fun (t, rest) => (.text t, rest)
      else if c = '[' then
        if nestingLimit ≤ level + 1 then none
        else (readItems fuel (level + 1) rest).map fun (items, rest) => (.array items, rest)
      else if c = '{' then
        if nestingLimit ≤ level + 1 then none
        else
          match skipSpace rest with
          | '}' :: rest => some (.table .inline [], rest)
          | rest =>
            (readMembers fuel (level + 1) ⟨.inline, []⟩ rest).map fun (t, rest) =>
              (.table .inline t.entries, rest)
      else if startsTime s || startsDate s then readMoment s
      else if c.isDigit || c = '+' || c = '-' || c = 'i' || c = 'n' then readNumber s
      else
        match s with
        | 't' :: 'r' :: 'u' :: 'e' :: rest => some (.bool true, rest)
        | 'f' :: 'a' :: 'l' :: 's' :: 'e' :: rest => some (.bool false, rest)
        | _ => none

/-- The items of an array up to its closing bracket; a comma may stand after the last one. -/
def readItems : (fuel level : Nat) → Reader (List Toml)
  | 0, _, _ => none
  | fuel + 1, level, s => do
    match ← skipTrivia (s.length + 1) s with
    | ']' :: rest => return ([], rest)
    | s =>
      let (item, s) ← readValue fuel level s
      match ← skipTrivia (s.length + 1) s with
      | ',' :: rest =>
        let (items, rest) ← readItems fuel level rest
        return (item :: items, rest)
      | ']' :: rest => return ([item], rest)
      | _ => none

/-- The members of a table in braces up to its closing brace. -/
def readMembers : (fuel level : Nat) → Table → Reader Table
  | 0, _, _, _ => none
  | fuel + 1, level, t, s => do
    let (path, s) ← readKey s
    let s ← expect? '=' s
    let (value, s) ← readValue fuel level (skipSpace s)
    let t ← t.addKey path value
    match skipSpace s with
    | ',' :: rest => readMembers fuel level t rest
    | '}' :: rest => return (t, rest)
    | _ => none

end

/-- A document that is being read: the root table, and the table that entries go to. -/
structure Document where
  root : Table := { kind := .headed }
  current : List String := []

namespace Document

def addEntry (d : Document) (path : List String) (value : Toml) : Option Document := do
  return { d with root := ← d.root.update false (·.addKey path value) d.current }

def readHeader (d : Document) (isRepeated : Bool) (s : List Char) : Option (Document × List Char) := do
  let (path, s) ← readKey s
  let s ← expect? ']' s
  let s ← if isRepeated then expect? ']' s else some s
  return ({ root := ← d.root.openHeader isRepeated path, current := path }, ← afterLine? s)

def readEntry (d : Document) (s : List Char) : Option (Document × List Char) := do
  let (path, s) ← readKey s
  let s := skipSpace (← expect? '=' s)
  let (value, s) ← readValue (2 * s.length + 2) 0 s
  return (← d.addEntry path value, ← afterLine? s)

/-- Reads line after line; every line takes a character. -/
def readLines : (fuel : Nat) → Document → List Char → Option Document
  | 0, d, s => if s.isEmpty then some d else none
  | fuel + 1, d, s =>
    match skipSpace s with
    | [] => some d
    | '[' :: '[' :: rest => (d.readHeader true rest).bind fun (d, rest) => readLines fuel d rest
    | '[' :: rest => (d.readHeader false rest).bind fun (d, rest) => readLines fuel d rest
    | c :: rest =>
      if c = '#' ∨ c = '\n' ∨ c = '\r' then
        (afterLine? (c :: rest)).bind (readLines fuel d)
      else (d.readEntry (c :: rest)).bind fun (d, rest) => readLines fuel d rest

end Document

/-- Reads a document. A byte order mark at its start is skipped. -/
def parse? (s : List Char) : Option Toml := do
  let s := match s with
    | c :: rest => if c = '﻿' then rest else c :: rest
    | [] => []
  let d ← Document.readLines (s.length + 1) {} s
  return .table d.root.kind d.root.entries

/-- The values of a record's fields in order, each absent or present. A record is a table, an array of its
first fields, or a date or time, which has none of them. -/
def fields? (names : List String) : Toml → Option (List (Option Toml))
  | .table _ entries => some (names.map fun n => entries.lookup n)
  | .array items => some (names.zipIdx.map fun n => items[n.2]?)
  | .tables latestFirst =>
    let items := latestFirst.reverse.map fun t => Toml.table t.1 t.2
    some (names.zipIdx.map fun n => items[n.2]?)
  | .moment => some (names.map fun _ => none)
  | _ => none

def text? : Toml → Option String
  | .text s => some s
  | _ => none

def bool? : Toml → Option Bool
  | .bool b => some b
  | _ => none

def float? : Toml → Option Float
  | .float x => some x
  | .integer n => some (Float.ofInt n)
  | _ => none

def count? : Toml → Option Nat
  | .integer n => if 0 ≤ n then some n.toNat else none
  | _ => none

def texts? : Toml → Option (List String)
  | .array items => items.mapM text?
  | _ => none

def withDefault {α : Type} (default : α) (read : Toml → Option α) : Option Toml → Option α
  | none => some default
  | some v => read v

end ModuleGraph.Toml
