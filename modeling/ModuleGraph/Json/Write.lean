import ModuleGraph.Json.Basic

namespace ModuleGraph.Json

def quoted (spelling : List Char) : List Char :=
  '"' :: spelling ++ ['"']

def newline (level : Nat) : List Char :=
  '\n' :: List.replicate (2 * level) ' '

mutual

def indented (level : Nat) : Json → List Char
  | .null => "null".toList
  | .bool b => if b then "true".toList else "false".toList
  | .number spelling => spelling
  | .string spelling => quoted spelling
  | .array [] => "[]".toList
  | .array (item :: items) =>
    '[' :: newline (level + 1) ++ indented (level + 1) item
      ++ indentedItems (level + 1) items ++ newline level ++ [']']
  | .object [] => ['{', '}']
  | .object ((key, value) :: members) =>
    '{' :: newline (level + 1) ++ quoted key ++ [':', ' '] ++ indented (level + 1) value
      ++ indentedMembers (level + 1) members ++ newline level ++ ['}']

def indentedItems (level : Nat) : List Json → List Char
  | [] => []
  | item :: items =>
    ',' :: newline level ++ indented level item ++ indentedItems level items

def indentedMembers (level : Nat) : List (List Char × Json) → List Char
  | [] => []
  | (key, value) :: members =>
    ',' :: newline level ++ quoted key ++ [':', ' '] ++ indented level value
      ++ indentedMembers level members

end

def pretty (j : Json) : List Char :=
  indented 0 j

mutual

def compact : Json → List Char
  | .null => "null".toList
  | .bool b => if b then "true".toList else "false".toList
  | .number spelling => spelling
  | .string spelling => quoted spelling
  | .array [] => "[]".toList
  | .array (item :: items) => '[' :: compact item ++ compactItems items ++ [']']
  | .object [] => ['{', '}']
  | .object ((key, value) :: members) =>
    '{' :: quoted key ++ ':' :: compact value ++ compactMembers members ++ ['}']

def compactItems : List Json → List Char
  | [] => []
  | item :: items => ',' :: compact item ++ compactItems items

def compactMembers : List (List Char × Json) → List Char
  | [] => []
  | (key, value) :: members =>
    ',' :: quoted key ++ ':' :: compact value ++ compactMembers members

end

end ModuleGraph.Json
