import ModuleGraph.Text.Basic
import ModuleGraph.Text.Hex

/-!
JSON documents. Numbers and strings are kept as they are spelled; their meaning is looked up only where it is
asked for, so a document may hold a number out of range, or half of a surrogate pair, where nobody looks.
-/

namespace ModuleGraph

/-- A JSON document. An object keeps its members in order, repeated keys included. -/
inductive Json where
  | null
  | bool (b : Bool)
  | number (spelling : List Char)
  | string (spelling : List Char)
  | array (items : List Json)
  | object (members : List (List Char × Json))

namespace Json

def escapeChar (c : Char) : List Char :=
  if c = '"' then ['\\', '"']
  else if c = '\\' then ['\\', '\\']
  else if c = '\n' then ['\\', 'n']
  else if c = '\r' then ['\\', 'r']
  else if c = '\t' then ['\\', 't']
  else if c = '\x08' then ['\\', 'b']
  else if c = '\x0c' then ['\\', 'f']
  else if c.toNat < 0x20 then
    ['\\', 'u', '0', '0', Text.hexDigit (c.toNat / 16), Text.hexDigit (c.toNat % 16)]
  else [c]

/-- The spelling of a text, without the quotes around it. -/
def escape (s : List Char) : List Char :=
  s.flatMap escapeChar

def shortEscape? (c : Char) : Option Char :=
  if c = '"' ∨ c = '\\' ∨ c = '/' then some c
  else if c = 'b' then some '\x08'
  else if c = 'f' then some '\x0c'
  else if c = 'n' then some '\n'
  else if c = 'r' then some '\r'
  else if c = 't' then some '\t'
  else none

def isHighSurrogate (n : Nat) : Bool := 0xD800 ≤ n && n ≤ 0xDBFF
def isLowSurrogate (n : Nat) : Bool := 0xDC00 ≤ n && n ≤ 0xDFFF

def pairChar (high low : Nat) : Char :=
  Char.ofNat (0x10000 + (high - 0xD800) * 0x400 + (low - 0xDC00))

/-- The text of a spelling. A surrogate that is not one half of a pair stands for no text. -/
def unescape? : List Char → Option (List Char)
  | [] => some []
  | '\\' :: 'u' :: a :: b :: c :: d :: rest => do
    let unit ← Text.hexNumber? [a, b, c, d]
    if isLowSurrogate unit then none
    else if isHighSurrogate unit then
      match rest with
      | '\\' :: 'u' :: a' :: b' :: c' :: d' :: rest' => do
        let low ← Text.hexNumber? [a', b', c', d']
        if isLowSurrogate low then return pairChar unit low :: (← unescape? rest') else none
      | _ => none
    else return Char.ofNat unit :: (← unescape? rest)
  | '\\' :: c :: rest => do
    let c ← shortEscape? c
    return c :: (← unescape? rest)
  | c :: rest => do return c :: (← unescape? rest)

def ofText (s : String) : Json :=
  .string (escape s.toList)

def ofNat (n : Nat) : Json :=
  .number (Nat.toDigits 10 n)

def ofMembers (members : List (String × Json)) : Json :=
  .object (members.map fun m => (escape m.1.toList, m.2))

def ofTexts (items : List String) : Json :=
  .array (items.map ofText)

end Json

end ModuleGraph
