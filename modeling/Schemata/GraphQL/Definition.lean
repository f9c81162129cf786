import Schemata.GraphQL.TypeRef
import Schemata.GraphQL.Value
import Schemata.TypeSystem

namespace Schemata.GraphQL

structure InputDef where
  name : String
  type : TypeRef
  description : Option String
  default : Option Value
  deriving Inhabited

structure FieldDef where
  name : String
  type : TypeRef
  description : Option String
  deprecation : Option String
  arguments : List InputDef
  deriving Inhabited

/-- The fields of an object also say how they are resolved. -/
inductive Definition
  | scalar (description : Option String)
  | enum (description : Option String) (values : List String)
  | input (description : Option String) (fields : List InputDef)
  | interface (description : Option String) (extended : List String) (fields : List FieldDef)
  | object (description : Option String) (interfaces : List String) (fields : List ModelField)
  | union (description : Option String) (members : List String)
  deriving Inhabited

abbrev Definitions := Table Definition

def distinct (names : List String) : List String :=
  names.foldl (fun kept name => if name ∈ kept then kept else kept ++ [name]) []

/-- The default is written as the plain constant that it is declared as. -/
def InputDef.ofArgument (argument : ModelArgument) : InputDef :=
  { name := argument.name
    type := .ofSignature argument.type
    description := argument.description
    default := argument.default.map .ofJson }

def FieldDef.ofField (field : ModelField) : FieldDef :=
  { name := field.name
    type := .ofSignature field.type
    description := field.description
    deprecation := field.deprecation
    arguments := field.arguments.map .ofArgument }

namespace Definition

def ofRoot (root : RootType) : Definition :=
  .object none [] root.fields

def linkFields : Definition → List FieldDef
  | .object _ _ fields => fields.map .ofField
  | .interface _ _ fields => fields
  | _ => []

def isComposite : Definition → Bool
  | .object .. | .interface .. | .union .. => true
  | _ => false

def isInput : Definition → Bool
  | .scalar .. | .enum .. | .input .. => true
  | _ => false

end Definition

/-- Every type of a model in the order in which it is registered, roots last. -/
def registrations (model : SchemaModel) : List (String × Definition) :=
  model.scalars.map (fun (name, scalar) => (name, .scalar scalar.description))
    ++ model.enums.map (fun (name, enum) => (name, .enum enum.description (distinct enum.values)))
    ++ model.inputs.map (fun (name, input) =>
        (name, .input input.description (input.fields.map .ofArgument)))
    ++ model.interfaces.map (fun (name, interface) =>
        (name, .interface interface.description (distinct interface.interfaces)
          (interface.fields.map .ofField)))
    ++ model.objects.map (fun (name, object) =>
        (name, .object object.description (distinct object.interfaces) object.fields))
    ++ model.unions.map (fun (name, union) =>
        (name, .union union.description (distinct union.members)))
    ++ [(model.query.name, .ofRoot model.query)]
    ++ model.mutation.toList.map (fun root => (root.name, .ofRoot root))

def Definitions.ofModel (model : SchemaModel) : Definitions :=
  Table.insertAll [] (registrations model)

end Schemata.GraphQL
