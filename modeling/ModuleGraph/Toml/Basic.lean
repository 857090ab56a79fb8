namespace ModuleGraph

namespace Toml

/-- How a table came about, which decides how it may be extended. -/
inductive TableKind where
  /-- It was passed on the way to a table with a header. -/
  | implied
  /-- It was passed on the way to a dotted key. -/
  | dotted
  /-- It has a header of its own, or it is the whole document. -/
  | headed
  /-- It was written in braces. -/
  | inline
  deriving DecidableEq, Repr

end Toml

/-- A TOML value. Nothing is kept of a date or a time but that it is one. -/
inductive Toml where
  | text (s : String)
  | integer (n : Int)
  | float (x : Float)
  | bool (b : Bool)
  | moment
  | array (items : List Toml)
  | table (kind : Toml.TableKind) (entries : List (String × Toml))
  /-- The tables of a repeated header, the last one first. -/
  | tables (latestFirst : List (Toml.TableKind × List (String × Toml)))

namespace Toml

/-- A table that is being filled. -/
structure Table where
  kind : TableKind
  entries : List (String × Toml) := []

namespace Table

/-- Puts a value in the place of the entry of a key, or after all entries if there is none. -/
def put (t : Table) (key : String) (value : Toml) : Table :=
  if t.entries.any (·.1 == key) then
    { t with entries := t.entries.map fun e => if e.1 == key then (key, value) else e }
  else { t with entries := t.entries ++ [(key, value)] }

def get? (t : Table) (key : String) : Option Toml :=
  t.entries.lookup key

/-- Changes the table that a path leads to. Tables on the way that are missing are made. A path goes through
the last table of a repeated header; it does not go through values, and that of a dotted key does not go
through a table with a header of its own. -/
def update (viaKey : Bool) (f : Table → Option Table) : (path : List String) → Table → Option Table
  | [], t => f t
  | key :: path, t =>
    match t.get? key with
    | none => do
      let child ← update viaKey f path { kind := if viaKey then .dotted else .implied }
      return t.put key (.table child.kind child.entries)
    | some (.table kind entries) =>
      if kind = .inline ∨ (viaKey ∧ kind = .headed) then none
      else do
        let child ← update viaKey f path ⟨kind, entries⟩
        return t.put key (.table child.kind child.entries)
    | some (.tables ((kind, entries) :: rest)) => do
      let child ← update viaKey f path ⟨kind, entries⟩
      return t.put key (.tables ((child.kind, child.entries) :: rest))
    | some _ => none

/-- Adds an entry under a key that is still free. A dotted key has to end in a table made by dotted keys. -/
def addEntry (isDotted : Bool) (key : String) (value : Toml) (t : Table) : Option Table :=
  if decide (t.kind = .dotted) != isDotted then none
  else if (t.get? key).isSome then none
  else some (t.put key value)

def addKey (t : Table) (path : List String) (value : Toml) : Option Table :=
  match path.getLast? with
  | none => none
  | some key =>
    update true (addEntry (path.length > 1) key value) path.dropLast t

/-- Opens the table of a header: a new one, or one that was only implied so far. -/
def openTable (key : String) (t : Table) : Option Table :=
  match t.get? key with
  | none => some (t.put key (.table .headed []))
  | some (.table .implied entries) => some (t.put key (.table .headed entries))
  | some _ => none

def openElement (key : String) (t : Table) : Option Table :=
  match t.get? key with
  | none => some (t.put key (.tables [(.headed, [])]))
  | some (.tables ts) => some (t.put key (.tables ((.headed, []) :: ts)))
  | some _ => none

def openHeader (isRepeated : Bool) (path : List String) (t : Table) : Option Table :=
  match path.getLast? with
  | none => none
  | some key => update false (if isRepeated then openElement key else openTable key) path.dropLast t

end Table

end Toml

end ModuleGraph
