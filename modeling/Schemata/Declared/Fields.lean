import Schemata.Resolver
import Schemata.TypeExpr

namespace Schemata

mutual

structure FieldDeclaration where
  name : String
  type : TypeExpr
  description : Option String
  deprecation : Option String
  default : Option Json
  resolver : Option ResolverBinding

/-- Without a handler the field reads the entry of its name in the parent record. -/
structure ResolverBinding where
  handler : Option Handler
  sources : List ArgumentSource

/-- A set contributes all its fields as arguments. -/
inductive ArgumentSource
  | single (argument : FieldDeclaration)
  | set (name : TypeName)

end

namespace FieldDeclaration

def new (name : String) (type : TypeExpr) : FieldDeclaration :=
  ⟨name, type, none, none, none, none⟩

instance : Inhabited FieldDeclaration := ⟨new "" (.named (.literal ""))⟩

def binding (field : FieldDeclaration) : ResolverBinding :=
  field.resolver.getD ⟨none, []⟩

def resolveWith (field : FieldDeclaration) (handler : Handler) : FieldDeclaration :=
  { field with resolver := some { field.binding with handler := some handler } }

def addSource (field : FieldDeclaration) (source : ArgumentSource) : FieldDeclaration :=
  { field with resolver := some { field.binding with sources := field.binding.sources ++ [source] } }

def sources (field : FieldDeclaration) : List ArgumentSource :=
  field.binding.sources

def handler (field : FieldDeclaration) : Option Handler :=
  field.binding.handler

end FieldDeclaration

end Schemata
