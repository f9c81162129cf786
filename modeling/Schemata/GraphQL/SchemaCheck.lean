import Schemata.GraphQL.Definition

namespace Schemata.GraphQL

inductive SchemaFault
  | noFields (object : String)
  | reservedField (owner field : String)
  | reservedArgument (owner field argument : String)
  | selfReference (input : String)
  | missingArgument (type interface field argument : String)
  | argumentType (type interface field argument : String)
  | fieldType (type interface field : String)
  deriving DecidableEq, Inhabited

def SchemaFault.message : SchemaFault → String
  | .noFields object => s!"Object \"{object}\" must define one or more fields"
  | .reservedField owner field =>
    s!"Field \"{owner}.{field}\" must not have a name which begins with the characters \"__\" (two underscores)"
  | .reservedArgument owner field argument =>
    s!"Argument \"{owner}.{field}.{argument}\" must not have a name which begins with the characters \"__\" (two underscores)"
  | .selfReference input =>
    s!"\"{input}\" references itself either directly or through referenced Input Objects, at least one of the fields in the chain of references must be either a nullable or a List type."
  | .missingArgument type interface field argument =>
    s!"Field \"{type}.{field}\" requires argument \"{argument}\" defined by interface \"{interface}.{field}\""
  | .argumentType type interface field argument =>
    s!"Argument \"{interface}.{field}.{argument}\" is not sub-type of \"{type}.{field}.{argument}\""
  | .fieldType type interface field =>
    s!"Field \"{type}.{field}\" is not sub-type of \"{interface}.{field}\""

abbrev Checked := Except SchemaFault Unit

namespace SchemaCheck

def require (holds : Bool) (fault : SchemaFault) : Checked :=
  if holds then .ok () else .error fault

def isReserved (name : String) : Bool :=
  "__".toList.isPrefixOf name.toList

def checkNames (owner : String) (field : FieldDef) : Checked := do
  require (!isReserved field.name) (.reservedField owner field.name)
  field.arguments.forM fun argument =>
    require (!isReserved argument.name) (.reservedArgument owner field.name argument.name)

def argument? (field : FieldDef) (name : String) : Option InputDef :=
  field.arguments.find? (·.name == name)

/-- An argument that the field lacks may only be a nullable one. -/
def checkArgument (type interface : String) (found : FieldDef) (field : FieldDef)
    (argument : InputDef) : Checked :=
  match argument? found argument.name with
  | none =>
    require (!argument.type.isNonNull) (.missingArgument type interface field.name argument.name)
  | some own =>
    require (argument.type.admits own.type) (.argumentType type interface field.name argument.name)

def checkField (type interface : String) (fields : List FieldDef) (field : FieldDef) : Checked :=
  match fields.find? (·.name == field.name) with
  | none => .ok ()
  | some found => do
    field.arguments.forM (checkArgument type interface found field)
    require (found.type.admits field.type) (.fieldType type interface field.name)

def checkInterface (definitions : Definitions) (type : String) (fields : List FieldDef)
    (interface : String) : Checked :=
  match Table.get? definitions interface with
  | some (.interface _ _ required) => required.forM (checkField type interface fields)
  | _ => .ok ()

def checkObject (definitions : Definitions) : String × Definition → Checked
  | (name, .object _ interfaces fields) => do
    require (!fields.isEmpty) (.noFields name)
    let fields := fields.map FieldDef.ofField
    fields.forM (checkNames name)
    interfaces.forM (checkInterface definitions name fields)
  | _ => .ok ()

def demanded? (definitions : Definitions) (field : InputDef) : Option (String × List InputDef) :=
  match field.type with
  | .nonNull (.named name) =>
    match Table.get? definitions name with
    | some (.input _ fields) => some (name, fields)
    | _ => none
  | _ => none

/-- Whether mandatory fields lead back to `start`. A type is not entered again below itself, so
that the number of definitions bounds the depth. -/
def leadsBack (definitions : Definitions) (start : String) : Nat → List String → List InputDef → Bool
  | 0, _, _ => false
  | fuel + 1, path, fields =>
    fields.any fun field =>
      match demanded? definitions field with
      | none => false
      | some (name, next) =>
        if name = start then true
        else if name ∈ path then false
        else leadsBack definitions start fuel (name :: path) next

def checkInput (definitions : Definitions) : String × Definition → Checked
  | (name, .input _ fields) => do
    fields.forM fun field => require (!isReserved field.name) (.reservedField name field.name)
    require (!leadsBack definitions name (definitions.length + 1) [] fields) (.selfReference name)
  | _ => .ok ()

/-- The extended interfaces are looked at anew after each field. -/
def checkInterfaceType (definitions : Definitions) : String × Definition → Checked
  | (name, .interface _ extended fields) =>
    fields.forM fun field => do
      checkNames name field
      extended.forM (checkInterface definitions name fields)
  | _ => .ok ()

end SchemaCheck

/-- Objects are checked first, then inputs, then interfaces. -/
def Definitions.check (definitions : Definitions) : Checked := do
  List.forM definitions (SchemaCheck.checkObject definitions)
  List.forM definitions (SchemaCheck.checkInput definitions)
  List.forM definitions (SchemaCheck.checkInterfaceType definitions)

end Schemata.GraphQL
