import Schemata.GraphQL.Request

namespace Schemata.GraphQL

mutual

def Literal.same : Literal → Literal → Bool
  | .null, .null => true
  | .boolean a, .boolean b => a == b
  | .int a, .int b => a == b
  | .float a, .float b => a == b
  | .string a, .string b => a == b
  | .enum a, .enum b => a == b
  | .var a, .var b => a == b
  | .list items, .list others => sameLiterals items others
  | .object fields, .object others =>
    fields.length == others.length && sameFields fields others
  | _, _ => false

def sameLiterals : List Literal → List Literal → Bool
  | [], [] => true
  | item :: rest, other :: others => item.same other && sameLiterals rest others
  | _, _ => false

def sameFields : List (String × Literal) → List (String × Literal) → Bool
  | [], _ => true
  | (name, item) :: rest, others =>
    (match Table.get? others name with
      | some other => item.same other
      | none => false)
      && sameFields rest others

end

def FieldHead.agrees (a b : FieldHead) : Bool :=
  a.name == b.name && a.arguments.length == b.arguments.length
    && sameFields a.arguments b.arguments

mutual

/-- The fields of a selection set, each with the type of the innermost fragment around it. -/
def Selection.heads (condition : Option String) : Selection → List (Option String × FieldHead)
  | .leaf head => [(condition, head)]
  | .branch head _ => [(condition, head)]
  | .fragment inner selections => headsOf inner selections

def headsOf (condition : Option String) : List Selection → List (Option String × FieldHead)
  | [] => []
  | selection :: rest => selection.heads condition ++ headsOf condition rest

end

/-- Each field agrees with the first one of its key and condition. -/
def headsAgree (seen : List (Option String × FieldHead)) :
    List (Option String × FieldHead) → Bool
  | [] => true
  | (condition, head) :: rest =>
    match seen.find? fun other => other.1 == condition && other.2.key == head.key with
    | some first => first.2.agrees head && headsAgree seen rest
    | none => headsAgree (seen ++ [(condition, head)]) rest

mutual

def Selection.mergeable : Selection → Bool
  | .leaf _ => true
  | .branch head selections =>
    head.isTypename || headsAgree [] (headsOf none selections) && selectionsMergeable selections
  | .fragment _ selections =>
    headsAgree [] (headsOf none selections) && selectionsMergeable selections

def selectionsMergeable : List Selection → Bool
  | [] => true
  | selection :: rest => selection.mergeable && selectionsMergeable rest

end

def Request.isMergeable (request : Request) : Bool :=
  headsAgree [] (headsOf none request.selections) && selectionsMergeable request.selections

end Schemata.GraphQL
