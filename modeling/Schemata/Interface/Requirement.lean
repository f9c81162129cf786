import Schemata.Catalog.Flattening

namespace Schemata

namespace Requirement

variable (catalog : Catalog) (effective : Table FieldSet)

def signatureOf (field : FieldDeclaration) : Signature :=
  field.type.signature catalog.elements

/-- The arguments that one source contributes; a name that is no argument set contributes none. -/
def sourceTypes : ArgumentSource → Table Signature
  | .single argument => [(argument.name, signatureOf catalog argument)]
  | .set reference =>
    let name := reference.resolve catalog.elements
    if catalog.kindOf name = some (.declared .argumentSet) then
      ((Table.get? effective name).getD []).map fun (argument, field) =>
        (argument, signatureOf catalog field.declaration)
    else []

/-- The flattened arguments of a field; a later source replaces an earlier one in place. -/
def argumentTypes (field : FieldDeclaration) : Table Signature :=
  field.sources.foldl
    (fun arguments source => Table.insertAll arguments (sourceTypes catalog effective source)) []

/-- Every required argument must be there with its type, and any further one must be nullable. -/
def argumentMismatches (expected found : Table Signature) : List (String × ArgumentMismatch) :=
  (expected.filterMap fun (argument, type) =>
    match Table.get? found argument with
    | none => some (argument, .missing type)
    | some other => if other = type then none else some (argument, .differs type other))
  ++ found.filterMap fun (argument, type) =>
    if !Table.contains expected argument && type.isNonNull then some (argument, .mustBeNullable type)
    else none

/-- One interface field is offered for supply unless the object has a field of that name. A
diverging field of a later interface replaces an earlier one, so that the earlier interface is the
one found violated. -/
def offer (own supplied : FieldSet) (name : String) (required : SeenField) : FieldSet :=
  if Table.contains own name then supplied
  else match Table.get? supplied name with
    | some present =>
      if signatureOf catalog present.declaration = signatureOf catalog required.declaration
      then supplied
      else Table.insert supplied name required
    | none => Table.insert supplied name required

def requiredFields (interfaces : List String) : List (String × String × SeenField) :=
  interfaces.flatMap fun interface =>
    ((Table.get? effective interface).getD []).map fun (name, required) => (interface, name, required)

def suppliedFields (interfaces : List String) (own : FieldSet) : FieldSet :=
  (requiredFields effective interfaces).foldl
    (fun supplied (_, name, required) => offer catalog own supplied name required) []

def fieldViolations (object interface name : String) (required : SeenField)
    (candidate : Option SeenField) : List Problem :=
  match candidate with
  | none => [.missingInterfaceField interface object name]
  | some candidate =>
    let expected := signatureOf catalog required.declaration
    let found := signatureOf catalog candidate.declaration
    if found ≠ expected then [.interfaceFieldMismatch interface object name expected found]
    else
      (argumentMismatches (argumentTypes catalog effective required.declaration)
        (argumentTypes catalog effective candidate.declaration)).map
        fun (argument, mismatch) =>
          .interfaceArgumentMismatch interface object required.declaration.name argument mismatch

def candidate? (own supplied : FieldSet) (name : String) : Option SeenField :=
  (Table.get? own name).or (Table.get? supplied name)

def violations (object : String) (interfaces : List String) (own supplied : FieldSet) : List Problem :=
  (requiredFields effective interfaces).flatMap fun (interface, name, required) =>
    fieldViolations catalog effective object interface name required (candidate? own supplied name)

/-- Supplied fields come before the object's own. -/
def completed (own supplied : FieldSet) : FieldSet :=
  if supplied.isEmpty then own else Table.insertAll supplied own

end Requirement

end Schemata
