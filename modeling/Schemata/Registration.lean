import Schemata.Declared.Types

namespace Schemata

/-- Everything declared since the last clear, each kind in the order of its registration. -/
structure Registry where
  types : List TypeDeclaration := []
  fields : List (TypeName × FieldDeclaration) := []
  implementations : List (TypeName × TypeName) := []
  extensions : List (TypeName × TypeName) := []
  resolvers : List (TypeName × ResolverMethod) := []
  scalars : List ScalarDeclaration := []
  enums : List EnumDeclaration := []
  unions : List UnionDeclaration := []
  generation : UInt64 := 0

instance : Inhabited Registry := ⟨{}⟩

inductive Registration
  | type (declaration : TypeDeclaration)
  | field (owner : TypeName) (declaration : FieldDeclaration)
  | extends (type parent : TypeName)
  | implements (object : TypeName) (interfaces : List TypeName)
  | resolver (resolverClass : TypeName) (method : ResolverMethod)
  | scalar (declaration : ScalarDeclaration)
  | enum (declaration : EnumDeclaration)
  | union (declaration : UnionDeclaration)
  | clear

namespace Registry

/-- Clearing discards every declaration and counts a new generation. -/
def register (registry : Registry) : Registration → Registry
  | .type declaration => { registry with types := registry.types ++ [declaration] }
  | .field owner declaration => { registry with fields := registry.fields ++ [(owner, declaration)] }
  | .extends type parent => { registry with extensions := registry.extensions ++ [(type, parent)] }
  | .implements object interfaces =>
    { registry with
      implementations := registry.implementations ++ interfaces.map fun interface => (object, interface) }
  | .resolver resolverClass method =>
    { registry with resolvers := registry.resolvers ++ [(resolverClass, method)] }
  | .scalar declaration => { registry with scalars := registry.scalars ++ [declaration] }
  | .enum declaration => { registry with enums := registry.enums ++ [declaration] }
  | .union declaration => { registry with unions := registry.unions ++ [declaration] }
  | .clear => { generation := registry.generation + 1 }

def registerAll (registry : Registry) (steps : List Registration) : Registry :=
  steps.foldl register registry

def isEmpty (registry : Registry) : Bool :=
  registry.types.isEmpty && registry.fields.isEmpty && registry.implementations.isEmpty
    && registry.extensions.isEmpty && registry.resolvers.isEmpty && registry.scalars.isEmpty
    && registry.enums.isEmpty && registry.unions.isEmpty

end Registry

end Schemata
