import Schemata.Declared.Types
import Schemata.ConcreteType

namespace Schemata

structure ModelArgument where
  name : String
  type : Signature
  description : Option String
  default : Option Json
  deriving DecidableEq, Inhabited

/-- `owner` is the type, or for root fields the resolver class, that declared the field. -/
structure ModelField where
  name : String
  owner : String
  type : Signature
  description : Option String
  deprecation : Option String
  arguments : List ModelArgument
  handler : Option Handler
  deriving Inhabited

structure ObjectType where
  description : Option String
  fields : List ModelField
  interfaces : List String
  isTypeOf : Option RecordTest
  deriving Inhabited

/-- `interfaces` are the extended ones, nearest first. -/
structure InterfaceType where
  description : Option String
  fields : List ModelField
  interfaces : List String
  implementers : List String
  resolveType : Option TypeStrategy
  deriving Inhabited

structure InputType where
  description : Option String
  fields : List ModelArgument
  deriving DecidableEq, Inhabited

structure UnionType where
  description : Option String
  members : List String
  resolveType : Option TypeStrategy
  deriving Inhabited

structure ScalarType where
  description : Option String
  deriving DecidableEq, Inhabited

structure EnumType where
  description : Option String
  values : List String
  deriving DecidableEq, Inhabited

structure RootType where
  name : String
  fields : List ModelField
  deriving Inhabited

/-- Argument sets are flattened; they are no types of the schema. -/
structure TypeSystem where
  objects : Table ObjectType := []
  interfaces : Table InterfaceType := []
  inputs : Table InputType := []
  argumentSets : Table (List ModelArgument) := []
  unions : Table UnionType := []
  scalars : Table ScalarType := []
  enums : Table EnumType := []
  elements : ElementNames := []
  deriving Inhabited

structure SchemaModel extends TypeSystem where
  query : RootType
  mutation : Option RootType
  deriving Inhabited

inductive ModelKind
  | object
  | interface
  | input
  | union
  | scalar
  | enum
  deriving DecidableEq, Inhabited

def ModelKind.label : ModelKind → String
  | .object => "Object"
  | .interface => "Interface"
  | .input => "Input"
  | .union => "Union"
  | .scalar => "Scalar"
  | .enum => "Enum"

namespace TypeSystem

/-- Built-in scalars and argument sets are not listed. -/
def kindOf (types : TypeSystem) (name : String) : Option ModelKind :=
  if Table.contains types.objects name then some .object
  else if Table.contains types.interfaces name then some .interface
  else if Table.contains types.inputs name then some .input
  else if Table.contains types.unions name then some .union
  else if Table.contains types.scalars name then some .scalar
  else if Table.contains types.enums name then some .enum
  else none

def isAbstract (types : TypeSystem) (name : String) : Bool :=
  match types.kindOf name with
  | some .interface | some .union => true
  | _ => false

def implementer (types : TypeSystem) (name : String) : Implementer :=
  ⟨name, (Table.get? types.objects name).bind ObjectType.isTypeOf⟩

def discriminator? (types : TypeSystem) (abstract : String) : Option Discriminator :=
  match Table.get? types.interfaces abstract with
  | some interface =>
    some ⟨abstract, interface.implementers.map types.implementer, interface.resolveType, types.elements⟩
  | none =>
    (Table.get? types.unions abstract).map fun union =>
      ⟨abstract, union.members.map types.implementer, union.resolveType, types.elements⟩

def typeNames (types : TypeSystem) : List String :=
  Table.keys types.scalars ++ Table.keys types.enums ++ Table.keys types.inputs
    ++ Table.keys types.interfaces ++ Table.keys types.objects ++ Table.keys types.unions

end TypeSystem

end Schemata
