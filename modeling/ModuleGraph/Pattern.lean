import ModuleGraph.Text.Basic

/-!
Patterns over text, read from left to right. A pattern may be read in several ways; they are tried in a
fixed order (the first alternative before the second, an eager repetition longest first and a lazy one
shortest first) and the first way that lets everything after it succeed is taken. A run of characters has one
way only, so it is for places where what follows cannot start with a character of the run.
-/

namespace ModuleGraph

/-- A place in a text: its byte offset, the character before it and what is still to be read. -/
structure Cursor where
  offset : Nat
  before : Option Char
  rest : List Char

namespace Cursor

def start (text : List Char) : Cursor :=
  ⟨0, none, text⟩

def past (place : Cursor) (c : Char) (rest : List Char) : Cursor :=
  ⟨place.offset + c.utf8Size, some c, rest⟩

/-- The place so many characters further on, or the end of the text. -/
def skip (place : Cursor) : (count : Nat) → Cursor
  | 0 => place
  | count + 1 =>
    match place.rest with
    | [] => place
    | c :: cs => (place.past c cs).skip count

/-- The text between two places, the second of which is reached from the first. -/
def textTo (first last : Cursor) : List Char :=
  first.rest.take (first.rest.length - last.rest.length)

end Cursor

/-- A condition on a place that reads no character. -/
inductive Anchor where
  | lineStart
  | textEnd
  | wordEdge
  deriving DecidableEq, Repr

/-- Whether a neighbour of a place is a word character; the outside of the text is none. -/
def isWordAt : Option Char → Bool
  | some c => Text.isWord c
  | none => false

def Anchor.holds : Anchor → Cursor → Bool
  | .lineStart, p => p.before.isNone || p.before == some '\n'
  | .textEnd, p => p.rest.isEmpty
  | .wordEdge, p => isWordAt p.before != isWordAt p.rest.head?

/-- What a named part of a pattern stands for in the statement that it is found in. -/
inductive Slot where
  | keyword
  | typeMark
  | clause
  | source
  | binding
  | subject
  | name
  | names
  | value
  | body
  deriving DecidableEq, Repr

inductive Pattern where
  | empty
  | one (ok : Char → Bool)
  | anchor (a : Anchor)
  | seq (first second : Pattern)
  | either (first second : Pattern)
  /-- All characters of a class from here on, apart from the last `spare`, which have to be there. -/
  | span (ok : Char → Bool) (spare : Nat)
  | many (eager : Bool) (p : Pattern)
  | part (slot : Slot) (p : Pattern)

/-- A named part that was read: where it starts and where it ends. -/
structure Part where
  slot : Slot
  first : Cursor
  last : Cursor

/-- How far a pattern has been read, with the parts named so far, latest first. -/
structure Reading where
  place : Cursor
  parts : List Part

/-- Reads a pattern again and again while it moves on, at most `fuel` times. -/
def repeatReading {β : Type} (step : (Reading → Option β) → Reading → Option β) (eager : Bool)
    (next : Reading → Option β) : (fuel : Nat) → Reading → Option β
  | 0, r => next r
  | fuel + 1, r =>
    let further := fun r' =>
      if r.place.offset < r'.place.offset then repeatReading step eager next fuel r' else none
    if eager then (step further r).orElse fun _ => next r
    else (next r).orElse fun _ => step further r

/-- The result of the first way to read a pattern that `next` accepts. -/
def Pattern.read {β : Type} : Pattern → (Reading → Option β) → Reading → Option β
  | .empty, next, r => next r
  | .one ok, next, r =>
    match r.place.rest with
    | [] => none
    | c :: cs => if ok c then next { r with place := r.place.past c cs } else none
  | .anchor a, next, r => if a.holds r.place then next r else none
  | .seq p q, next, r => p.read (q.read next) r
  | .either p q, next, r => (p.read next r).orElse fun _ => q.read next r
  | .span ok spare, next, r =>
    let count := Text.runLength ok r.place.rest
    if spare ≤ count then next { r with place := r.place.skip (count - spare) } else none
  | .many eager p, next, r =>
    repeatReading (fun k => p.read k) eager next r.place.rest.length r
  | .part slot p, next, r =>
    p.read (fun r' => next { r' with parts := ⟨slot, r.place, r'.place⟩ :: r'.parts }) r

namespace Pattern

def text (s : String) : Pattern :=
  s.toList.foldr (fun c p => .seq (.one (· == c)) p) .empty

def inOrder (ps : List Pattern) : Pattern :=
  ps.foldr .seq .empty

/-- The first of the given patterns that leads on; there is always a last one. -/
def oneOf (p : Pattern) : List Pattern → Pattern
  | [] => p
  | q :: qs => .either p (oneOf q qs)

/-- A pattern that may be absent, though its presence is preferred. -/
def optional (p : Pattern) : Pattern :=
  .either p .empty

def run (ok : Char → Bool) : Pattern :=
  .span ok 0

/-- All characters of a class from here on, of which there is at least one. -/
def run1 (ok : Char → Bool) : Pattern :=
  .seq (.one ok) (run ok)

/-- One or more characters of a class, as many as what follows allows. -/
def eagerRun1 (ok : Char → Bool) : Pattern :=
  .seq (.one ok) (.many true (.one ok))

/-- One or more characters of a class, as few as possible. -/
def lazyRun1 (ok : Char → Bool) : Pattern :=
  .seq (.one ok) (.many false (.one ok))

def blanks : Pattern :=
  run Text.isBlank

def blanks1 : Pattern :=
  run1 Text.isBlank

/-- All white space from here on, or else all but its last character, which is then left to what follows. -/
def looseBlanks1 : Pattern :=
  .seq (.one Text.isBlank) (.either (.span Text.isBlank 0) (.span Text.isBlank 1))

end Pattern

structure Match where
  start : Nat
  stop : Nat
  parts : List Part

namespace Match

def part? (m : Match) (slot : Slot) : Option Part :=
  m.parts.find? (·.slot = slot)

def text? (m : Match) (slot : Slot) : Option (List Char) :=
  (m.part? slot).map fun p => p.first.textTo p.last

/-- The text read for a slot, empty if the slot was not reached. -/
def textOf (m : Match) (slot : Slot) : List Char :=
  (m.text? slot).getD []

/-- Where the part of a slot starts, or else the whole match. -/
def startOf (m : Match) (slot : Slot) : Nat :=
  match m.part? slot with
  | some p => p.first.offset
  | none => m.start

end Match

namespace Pattern

def matchAt (p : Pattern) (place : Cursor) : Option Match :=
  p.read (fun r => some ⟨place.offset, r.place.offset, r.parts⟩) ⟨place, []⟩

def matchStart (p : Pattern) (s : List Char) : Option Match :=
  p.matchAt (.start s)

/-- The matches of a pattern from a place on, none before the offset `resume`. -/
def matchesFrom (p : Pattern) (before : Option Char) (offset resume : Nat) :
    (rest : List Char) → List Match
  | [] => if offset < resume then [] else (p.matchAt ⟨offset, before, []⟩).toList
  | c :: cs =>
    let found := if offset < resume then none else p.matchAt ⟨offset, before, c :: cs⟩
    match found with
    | none => matchesFrom p (some c) (offset + c.utf8Size) resume cs
    | some m => m :: matchesFrom p (some c) (offset + c.utf8Size) m.stop cs

/-- The matches of a pattern in a text from left to right, each starting where the one before it ended or
later. -/
def matchesIn (p : Pattern) (s : List Char) : List Match :=
  p.matchesFrom none 0 0 s

end Pattern

end ModuleGraph
