import Schemata.GraphQL.Value
import Schemata.TypeSystem

namespace Schemata

def Signature.bare : Signature → Signature
  | .nonNull inner => inner.bare
  | type => type

namespace GraphQL

/-- Adds the declared default of every field that is not there; the default stays as declared. -/
def addOmitted (declared : List ModelArgument) (members : List (String × Json)) :
    List (String × Json) :=
  declared.foldl
    (fun members field =>
      match field.default with
      | some value =>
        if Table.contains members field.name then members
        else Json.insertMember field.name value members
      | none => members)
    members

mutual

/-- Fills in the omitted fields of the input objects in a value, as far as it has the shape of
its type. -/
def fillOmitted (inputs : Table InputType) (type : Signature) : Json → Json
  | .arr items =>
    match type.bare with
    | .list item => .arr (fillItems inputs item items)
    | _ => .arr items
  | .obj members =>
    match type.bare with
    | .named name =>
      match Table.get? inputs name with
      | some input => .obj (addOmitted input.fields (fillMembers inputs input.fields members))
      | none => .obj members
    | _ => .obj members
  | value => value

def fillItems (inputs : Table InputType) (type : Signature) : List Json → List Json
  | [] => []
  | item :: rest => fillOmitted inputs type item :: fillItems inputs type rest

def fillMembers (inputs : Table InputType) (declared : List ModelArgument) :
    List (String × Json) → List (String × Json)
  | [] => []
  | (name, value) :: rest =>
    (name, match declared.find? (·.name == name) with
      | some field => fillOmitted inputs field.type value
      | none => value)
      :: fillMembers inputs declared rest

end

def givenOrDefault (provided : Table Value) (argument : ModelArgument) : Option Json :=
  match Table.get? provided argument.name with
  | some value => some value.toJson
  | none => argument.default

def handlerArguments (inputs : Table InputType) (declared : List ModelArgument)
    (provided : Table Value) : Table Json :=
  declared.foldl
    (fun arguments argument =>
      match givenOrDefault provided argument with
      | some value =>
        Table.insert arguments argument.name (fillOmitted inputs argument.type value)
      | none => arguments)
    []

end GraphQL

end Schemata
