import Schemata.Problem

namespace Schemata

structure TypeEntry where
  kind : TypeKind
  description : Option String
  parent : Option String
  interfaces : List String
  fields : List FieldDeclaration
  isTypeOf : Option RecordTest
  resolveType : Option TypeStrategy
  deriving Inhabited

structure UnionEntry where
  description : Option String
  members : List String
  resolveType : Option TypeStrategy
  deriving Inhabited

structure ResolverEntry where
  resolverClass : String
  method : ResolverMethod
  deriving Inhabited

structure Catalog where
  elements : ElementNames := []
  types : Table TypeEntry := []
  scalars : Table ScalarDeclaration := []
  enums : Table EnumDeclaration := []
  unions : Table UnionEntry := []
  resolvers : List ResolverEntry := []
  deriving Inhabited

namespace Catalog

def get? (catalog : Catalog) (name : String) : Option TypeEntry :=
  Table.get? catalog.types name

def isTaken (catalog : Catalog) (name : String) : Bool :=
  isBuiltinScalar name || Table.contains catalog.types name || Table.contains catalog.scalars name
    || Table.contains catalog.enums name || Table.contains catalog.unions name

def kindOf (catalog : Catalog) (name : String) : Option NamedKind :=
  if isBuiltinScalar name || Table.contains catalog.scalars name then some .scalar
  else match catalog.get? name with
    | some entry => some (.declared entry.kind)
    | none =>
      if Table.contains catalog.enums name then some .enum
      else if Table.contains catalog.unions name then some .union
      else none

def typesOfKind (catalog : Catalog) (kind : TypeKind) : Table TypeEntry :=
  catalog.types.filter fun entry => entry.2.kind = kind

def modifyType (catalog : Catalog) (name : String) (change : TypeEntry → TypeEntry) : Catalog :=
  { catalog with types := Table.modify change catalog.types name }

end Catalog

end Schemata
