import Schemata.GraphQL.Definition
import Schemata.GraphQL.Request

namespace Schemata.GraphQL.Introspection

def plainField (name : String) (type : Signature) : ModelField :=
  ⟨name, "", type, none, none, [], none⟩

def definitions : Definitions :=
  [("__Schema", .object none []
      [plainField "queryType" (.nonNull (.named "__Type")), plainField "mutationType" (.named "__Type")]),
   ("__Type", .object none [] [plainField "name" (.named "String")])]

/-- The field of the query root under which the description stands. -/
def schemaField : FieldDef :=
  .ofField (plainField "__schema" (.nonNull (.named "__Schema")))

def describeType (name : String) : Output :=
  .record ⟨some (.literal "__Type"), [("name", .scalar (.str name))]⟩

def describe (query : String) (mutation : Option String) : Record :=
  ⟨some (.literal "__Schema"),
    [("queryType", describeType query), ("mutationType", mutation.elim .null describeType)]⟩

mutual

def select (record : Record) : Selection → List (String × Json)
  | .leaf head =>
    if head.isTypename then
      [(head.key, Json.ofText? (record.tag.map fun tag => tag.resolve []))]
    else [(head.key, ((record.get? head.name).getD .null).toJson)]
  | .branch head selections =>
    match record.get? head.name with
    | some (.record inner) => [(head.key, Json.object (selectAll inner selections))]
    | _ => [(head.key, .null)]
  | .fragment _ selections => selectAll record selections

def selectAll (record : Record) : List Selection → List (String × Json)
  | [] => []
  | selection :: rest => select record selection ++ selectAll record rest

end

end Schemata.GraphQL.Introspection
