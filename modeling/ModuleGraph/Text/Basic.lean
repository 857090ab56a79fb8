import ModuleGraph.Text.CharClass

namespace ModuleGraph.Text

def byteLength : List Char → Nat
  | [] => 0
  | c :: cs => c.utf8Size + byteLength cs

def runLength (ok : Char → Bool) : List Char → Nat
  | [] => 0
  | c :: cs => if ok c then runLength ok cs + 1 else 0

/-- Removes the longest run of characters in a class from the end. -/
def dropEndWhile (p : Char → Bool) (s : List Char) : List Char :=
  (s.reverse.dropWhile p).reverse

def trimStart (s : List Char) : List Char :=
  s.dropWhile isBlank

def trimEnd (s : List Char) : List Char :=
  dropEndWhile isBlank s

def trim (s : List Char) : List Char :=
  trimEnd (trimStart s)

/-- Cuts a text at every separator. There is one piece more than there are separators, so the empty text
has one empty piece. -/
def pieces {α : Type} (sep : α → Bool) : List α → List (List α)
  | [] => [[]]
  | c :: cs =>
    if sep c then [] :: pieces sep cs
    else match pieces sep cs with
      | [] => [[c]]
      | w :: ws => (c :: w) :: ws

def upTo (sep : Char → Bool) (s : List Char) : List Char :=
  s.takeWhile fun c => !sep c

/-- The maximal runs of characters that are not white space. -/
def words (s : List Char) : List (List Char) :=
  (pieces isBlank s).filter fun w => !w.isEmpty

/-- The first word, or the text itself when it has none. -/
def firstWord (s : List Char) : List Char :=
  (words s).headD s

/-- The items of a comma-separated list, trimmed, without the empty ones. -/
def commaItems (s : List Char) : List (List Char) :=
  ((pieces (· == ',') s).map trim).filter fun w => !w.isEmpty

/-- Removes the carriage return of a line that was ended by a carriage return and a newline. -/
def dropReturn (line : List Char) : List Char :=
  match line.reverse with
  | '\r' :: rest => rest.reverse
  | _ => line

/-- The lines of a text. A newline ends a line, so nothing follows the last one; a carriage return before
a newline belongs to the line end. -/
def lines (s : List Char) : List (List Char) :=
  let parts := pieces (· == '\n') s
  let ended := parts.dropLast.map dropReturn
  match parts.getLast? with
  | none | some [] => ended
  | some last => ended ++ [last]

def after? : List Char → List Char → Option (List Char)
  | [], s => some s
  | _ :: _, [] => none
  | p :: ps, c :: cs => if p = c then after? ps cs else none

def startsWith {α : Type} [BEq α] (s beginning : List α) : Bool :=
  beginning.isPrefixOf s

def endsWith {α : Type} [BEq α] (s ending : List α) : Bool :=
  ending.isSuffixOf s

def occursIn (part : List Char) : List Char → Bool
  | [] => part.isEmpty
  | c :: cs => part.isPrefixOf (c :: cs) || occursIn part cs

/-- The byte offsets at which the lines of a text start, in order. -/
structure LineIndex where
  starts : List Nat

namespace LineIndex

/-- The offsets behind the newlines of a text that stands at an offset. -/
def newlineEnds (offset : Nat) : List Char → List Nat
  | [] => []
  | c :: cs =>
    if c = '\n' then (offset + 1) :: newlineEnds (offset + 1) cs else newlineEnds (offset + c.utf8Size) cs

def ofText (text : List Char) : LineIndex :=
  ⟨0 :: newlineEnds 0 text⟩

/-- The line, counted from one, of a byte offset: the place of the first start behind the offset. -/
def lineOf (index : LineIndex) (offset : Nat) : Nat :=
  index.starts.findIdx (offset < ·)

end LineIndex

def lineAt (text : List Char) (offset : Nat) : Nat :=
  (LineIndex.ofText text).lineOf offset

end ModuleGraph.Text
