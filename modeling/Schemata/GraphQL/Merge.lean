import Schemata.Json.Basic

namespace Schemata.GraphQL

mutual

/-- Two objects are united, and so are the objects of two lists; otherwise the first answer
stays. -/
def mergeInto (target : Json) : Json → Json
  | .obj added =>
    match target with
    | .obj members => .obj (mergeMembers members added)
    | other => other
  | .arr added =>
    match target with
    | .arr items => .arr (mergeItems items added)
    | other => other
  | _ => target

def mergeItems (items : List Json) : List Json → List Json
  | [] => items
  | value :: rest =>
    match items with
    | [] => []
    | .obj members :: others => mergeItem members value :: mergeItems others rest
    | item :: others => item :: mergeItems others rest

def mergeItem (members : List (String × Json)) : Json → Json
  | .obj added => .obj (mergeMembers members added)
  | _ => .obj members

def mergeMembers (members : List (String × Json)) : List (String × Json) → List (String × Json)
  | [] => members
  | (key, value) :: rest =>
    mergeMembers
      (match Table.get? members key with
        | none => Json.insertMember key value members
        | some present => Json.insertMember key (mergeInto present value) members)
      rest

end

end Schemata.GraphQL
