import Schemata.Declared.Fields

namespace Schemata

/-- A type may only extend a type of its own kind. -/
inductive TypeKind
  | object
  | interface
  | input
  | argumentSet
  deriving DecidableEq, Inhabited

namespace TypeKind

/-- Fields of an output kind produce values, those of the others accept them. -/
def isOutput : TypeKind → Bool
  | .object | .interface => true
  | .input | .argumentSet => false

def label : TypeKind → String
  | .object => "Object type"
  | .interface => "Interface type"
  | .input => "Input type"
  | .argumentSet => "Argument-set type"

def lowerLabel : TypeKind → String
  | .object => "object type"
  | .interface => "interface type"
  | .input => "input type"
  | .argumentSet => "argument-set type"

end TypeKind

structure TypeDeclaration where
  name : String
  element : Option Element
  kind : TypeKind
  description : Option String
  parent : Option TypeName
  interfaces : List TypeName
  fields : List FieldDeclaration
  isTypeOf : Option RecordTest
  resolveType : Option TypeStrategy

namespace TypeDeclaration

def new (kind : TypeKind) (name : String) : TypeDeclaration :=
  ⟨name, none, kind, none, none, [], [], none, none⟩

instance : Inhabited TypeDeclaration := ⟨new default ""⟩

/-- A type made for an element is named after its identifier. -/
def forElement (kind : TypeKind) (element : Element) : TypeDeclaration :=
  { new kind element.ident with element := some element }

end TypeDeclaration

structure ScalarDeclaration where
  name : String
  description : Option String
  deriving Inhabited

structure EnumDeclaration where
  name : String
  values : List String
  description : Option String
  deriving Inhabited

structure UnionDeclaration where
  name : String
  members : List TypeName
  description : Option String
  resolveType : Option TypeStrategy
  deriving Inhabited

inductive Operation
  | query
  | mutation
  deriving DecidableEq, Inhabited

def Operation.label : Operation → String
  | .query => "Query"
  | .mutation => "Mutation"

structure ResolverMethod where
  operation : Operation
  field : FieldDeclaration
  deriving Inhabited

namespace ResolverMethod

def new (operation : Operation) (name : String) (type : TypeExpr) (handler : Handler) :
    ResolverMethod :=
  ⟨operation, (FieldDeclaration.new name type).resolveWith handler⟩

end ResolverMethod

end Schemata
