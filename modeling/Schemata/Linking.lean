import Schemata.Interface.Fulfilment
import Schemata.TypeSystem

namespace Schemata

/-- Argument sets flattened so far, in the order of their first use, and the problems met. -/
structure Findings where
  argumentSets : Table (List ModelArgument) := []
  problems : List Problem := []
  deriving Inhabited

abbrev Resolve (α : Type) := StateM Findings α

namespace Resolve

def report (problem : Problem) : Resolve Unit :=
  modify fun findings => { findings with problems := noteOnce findings.problems problem }

def note {α : Type} : Except Problem α → Resolve (Option α)
  | .ok value => pure (some value)
  | .error problem => do
    report problem
    pure none

def collect {α β : Type} (step : α → Resolve (Option β)) : List α → Resolve (List β)
  | [] => pure []
  | item :: rest => do
    let value ← step item
    let values ← collect step rest
    pure (value.toList ++ values)

end Resolve

namespace Linking

variable (catalog : Catalog) (effective : Table FieldSet)

open Resolve

def signature (owner field : String) (type : TypeExpr) (position : Position) : Except Problem Signature :=
  let signature := type.signature catalog.elements
  match catalog.kindOf signature.namedType with
  | none => .error (.unresolvableReference owner field signature.namedType)
  | some kind =>
    if position.accepts kind then .ok signature
    else .error (.invalidPosition owner field signature.namedType kind position)

def linkArgument (owner : String) (field : FieldDeclaration) : Except Problem ModelArgument :=
  (signature catalog owner field.name field.type .input).map fun type =>
    { name := field.name
      type := type
      description := field.description
      default := field.default }

/-- The fields of an argument set as arguments; each set is flattened once. -/
def argumentSet (name : String) : Resolve (List ModelArgument) := do
  match Table.get? (← get).argumentSets name with
  | some arguments => pure arguments
  | none =>
    match Table.get? effective name with
    | none => pure []
    | some fields =>
      let arguments ← collect (fun field => note (linkArgument catalog name field.declaration))
        (Table.values fields)
      modify fun findings =>
        { findings with argumentSets := Table.insert findings.argumentSets name arguments }
      pure arguments

def sourceArguments (owner field : String) : ArgumentSource → Resolve (List ModelArgument)
  | .single argument => do
    pure (← note (linkArgument catalog owner argument)).toList
  | .set reference => do
    let name := reference.resolve catalog.elements
    if catalog.kindOf name = some (.declared .argumentSet) then argumentSet catalog effective name
    else
      report (.notAnArgumentSet owner field name)
      pure []

def insertArguments (arguments : Table ModelArgument) (added : List ModelArgument) :
    Table ModelArgument :=
  added.foldl (fun arguments argument => Table.insert arguments argument.name argument) arguments

/-- A later source replaces an earlier argument of the same name in place. -/
def arguments (owner : String) (field : FieldDeclaration) : Resolve (List ModelArgument) := do
  let found ← field.sources.foldlM
    (fun found source => do
      pure (insertArguments found (← sourceArguments catalog effective owner field.name source)))
    []
  pure (Table.values found)

def linkField (owner declaredBy : String) (field : FieldDeclaration) : Resolve (Option ModelField) := do
  let arguments ← arguments catalog effective owner field
  let type ← note (signature catalog owner field.name field.type .output)
  pure (type.map fun type =>
    { name := field.name
      owner := declaredBy
      type := type
      description := field.description
      deprecation := field.deprecation
      arguments := arguments
      handler := field.handler })

def linkFields (owner : String) : Resolve (List ModelField) :=
  collect (fun field => linkField catalog effective owner field.owner field.declaration)
    (Table.values ((Table.get? effective owner).getD []))

def checkResolver (owner : String) (kind : TypeKind) (field : FieldDeclaration) : Resolve Unit :=
  if field.resolver.isSome then report (.misplacedResolver owner kind field.name) else pure ()

def linkInputFields (owner : String) : Resolve (List ModelArgument) :=
  collect
    (fun field => do
      checkResolver owner .input field.declaration
      note (linkArgument catalog owner field.declaration))
    (Table.values ((Table.get? effective owner).getD []))

def checkArgumentSet (name : String) : Resolve Unit := do
  (Table.values ((Table.get? effective name).getD [])).forM fun field =>
    checkResolver name .argumentSet field.declaration
  let _ ← argumentSet catalog effective name
  pure ()

def addType (relation : InterfaceRelation) (types : TypeSystem) (type : String × TypeEntry) :
    Resolve TypeSystem := do
  let (name, entry) := type
  match entry.kind with
  | .object =>
    let fields ← linkFields catalog effective name
    let object : ObjectType :=
      { description := entry.description
        fields := fields
        interfaces := (Table.get? relation.interfaces name).getD []
        isTypeOf := entry.isTypeOf }
    pure { types with objects := Table.insert types.objects name object }
  | .interface =>
    let fields ← linkFields catalog effective name
    let interface : InterfaceType :=
      { description := entry.description
        fields := fields
        interfaces := (Table.get? relation.ancestors name).getD []
        implementers := (Table.get? relation.implementers name).getD []
        resolveType := entry.resolveType }
    pure { types with interfaces := Table.insert types.interfaces name interface }
  | .input =>
    let fields ← linkInputFields catalog effective name
    pure { types with inputs := Table.insert types.inputs name ⟨entry.description, fields⟩ }
  | .argumentSet =>
    checkArgumentSet catalog effective name
    pure types

def checkMember (union member : String) : Resolve Unit :=
  match catalog.kindOf member with
  | none => report (.undeclaredType member (.unionMembers union))
  | some (.declared .object) => pure ()
  | some _ => report (.invalidUnionMember union member)

def ownTypes : TypeSystem :=
  { scalars := catalog.scalars.map fun (name, scalar) => (name, ⟨scalar.description⟩)
    enums := catalog.enums.map fun (name, enum) => (name, ⟨enum.description, enum.values⟩)
    unions := catalog.unions.map fun (name, union) =>
      (name, ⟨union.description, union.members, union.resolveType⟩)
    elements := catalog.elements }

def typeSystem (relation : InterfaceRelation) : Resolve TypeSystem := do
  let types ← catalog.types.foldlM (addType catalog effective relation) (ownTypes catalog)
  catalog.unions.forM fun (name, union) => union.members.forM (checkMember catalog name)
  pure { types with argumentSets := (← get).argumentSets }

end Linking

end Schemata
