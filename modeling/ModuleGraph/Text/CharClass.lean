import ModuleGraph.Text.Table

namespace ModuleGraph.Text

/-- Whether a code point lies in one of the closed intervals of a table. -/
def inRanges (table : List (Nat × Nat)) (c : Char) : Bool :=
  table.any fun r => r.1 ≤ c.toNat && c.toNat ≤ r.2

/-- The code points above the ASCII range with the `White_Space` property. -/
def blankRanges : List (Nat × Nat) := [
  (0x85, 0x85), (0xA0, 0xA0), (0x1680, 0x1680), (0x2000, 0x200A), (0x2028, 0x2029), (0x202F, 0x202F),
  (0x205F, 0x205F), (0x3000, 0x3000)]

def isBlank (c : Char) : Bool :=
  if c.toNat < 0x80 then c == ' ' || 0x9 ≤ c.toNat && c.toNat ≤ 0xD
  else inRanges blankRanges c

/-- A character of a word: alphabetic, a mark, a decimal digit, a connector or a joiner. -/
def isWord (c : Char) : Bool :=
  if c.toNat < 0x80 then c.isAlphanum || c == '_'
  else inRanges wordRanges c

/-- Alphabetic or numeric. Unlike a word character it may be any kind of number, and it is neither a
connector nor a mark without the `Alphabetic` property. -/
def isAlphanumeric (c : Char) : Bool :=
  if c.toNat < 0x80 then c.isAlphanum
  else inRanges alphanumericRanges c

/-- A character of an identifier of the curly-brace family: a word character or a dollar sign. -/
def isNameChar (c : Char) : Bool :=
  isWord c || c == '$'

/-- A first character of an identifier of the indentation family: an ASCII letter or an underscore. -/
def isNameStart (c : Char) : Bool :=
  c.isAlpha || c == '_'

def isQuote (c : Char) : Bool :=
  c == '\'' || c == '"'

end ModuleGraph.Text
