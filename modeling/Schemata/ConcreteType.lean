import Schemata.Resolver

namespace Schemata

inductive DiscriminationError
  | unresolvable (abstract field : String)
  | notAnImplementer (abstract field type : String)
  deriving DecidableEq, Inhabited

def DiscriminationError.message : DiscriminationError → String
  | .unresolvable abstract field =>
    s!"Abstract type \"{abstract}\" must resolve to an object type at runtime for field \"{field}\". "
      ++ "The returned value was not constructed as any known implementer. "
      ++ s!"Either the \"{abstract}\" type should provide a \"resolveType\" function "
      ++ "or each possible type should provide an \"isTypeOf\" function."
  | .notAnImplementer abstract field type =>
    s!"Runtime object type \"{type}\" returned for field \"{field}\" is not a possible type of \"{abstract}\""

structure Implementer where
  name : String
  isTypeOf : Option RecordTest

structure Discriminator where
  abstract : String
  implementers : List Implementer
  resolveType : Option TypeStrategy
  elements : ElementNames

namespace Discriminator

def isImplementer (discriminator : Discriminator) (name : String) : Bool :=
  discriminator.implementers.any (·.name == name)

def checked (discriminator : Discriminator) (name field : String) : Except DiscriminationError String :=
  if discriminator.isImplementer name then .ok name
  else .error (.notAnImplementer discriminator.abstract field name)

def accepts (implementer : Implementer) (record : Record) : Bool :=
  implementer.isTypeOf.any (· record)

/-- The type a record was made as decides; failing that the strategy, and then the first
implementer that recognizes the record. -/
def discriminate (discriminator : Discriminator) (record : Record) (field : String) :
    Except DiscriminationError String :=
  match record.tag with
  | some tag => discriminator.checked (tag.resolve discriminator.elements) field
  | none =>
    match discriminator.resolveType.bind (· record) with
    | some name => discriminator.checked name field
    | none =>
      match discriminator.implementers.find? (accepts · record) with
      | some implementer => .ok implementer.name
      | none => .error (.unresolvable discriminator.abstract field)

end Discriminator

end Schemata
