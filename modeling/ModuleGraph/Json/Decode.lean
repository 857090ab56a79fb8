import ModuleGraph.Json.Numeral
import ModuleGraph.Json.Read

namespace ModuleGraph

namespace Json

def text? : Json → Option String
  | .string spelling => (unescape? spelling).map String.ofList
  | _ => none

def bool? : Json → Option Bool
  | .bool b => some b
  | _ => none

def float? : Json → Option Float
  | .number spelling => (Numeral.ofSpelling spelling).toFloat?
  | _ => none

def count? : Json → Option Nat
  | .number spelling => (Numeral.ofSpelling spelling).toCount?
  | _ => none

/-- Every item of an array, read in the same way. -/
def list? {α : Type} (item : Json → Option α) : Json → Option (List α)
  | .array items => items.mapM item
  | _ => none

/-- The members of an object under the texts of their keys. -/
def members? : Json → Option (List (String × Json))
  | .object members =>
    members.mapM fun m => (unescape? m.1).map fun key => (String.ofList key, m.2)
  | _ => none

/-- The last member of each key, in the order of the keys' first members. -/
def lastMembers (members : List (String × Json)) : List (String × Json) :=
  members.foldl
    (fun kept m =>
      if kept.any (·.1 == m.1) then kept.map fun k => if k.1 == m.1 then m else k
      else kept ++ [m])
    []

/-- The one value of a field; `none` when two members carry its name. -/
def uniqueField? (members : List (String × Json)) (name : String) : Option (Option Json) :=
  match members.filter (·.1 == name) with
  | [] => some none
  | [m] => some (some m.2)
  | _ => none

/-- The values of a record's fields in order, each absent or present. A record is an object, whose other
members are skipped and in which no field may be repeated, or an array of exactly its fields. -/
def fields? (names : List String) : Json → Option (List (Option Json))
  | .array items => if items.length = names.length then some (items.map some) else none
  | j => do
    let members ← j.members?
    names.mapM (uniqueField? members)

def required {α : Type} (read : Json → Option α) (field : Option Json) : Option α :=
  field.bind read

def optional {α : Type} (read : Json → Option α) : Option Json → Option (Option α)
  | none | some .null => some none
  | some j => (read j).map some

/-- One of a few named alternatives: its name, or an object with the name as its one key and null as its
value. -/
def alternative? {α : Type} (names : List (String × α)) (j : Json) : Option α :=
  match j with
  | .string _ => do names.lookup (← j.text?)
  | .object [(key, .null)] => do names.lookup (← (Json.string key).text?)
  | _ => none

end Json

end ModuleGraph
