import Schemata.GraphQL.Introspection
import Schemata.GraphQL.Overlap

namespace Schemata.GraphQL

structure Scope where
  definitions : Definitions
  query : String
  mutation : Option String
  introspection : Bool
  deriving Inhabited

namespace Scope

def get? (scope : Scope) (name : String) : Option Definition :=
  (Table.get? scope.definitions name).or (Table.get? Introspection.definitions name)

def root? (scope : Scope) : Operation → Option String
  | .query => some scope.query
  | .mutation => scope.mutation

def isInputType (scope : Scope) (name : String) : Bool :=
  isBuiltinScalar name || (scope.get? name).any Definition.isInput

def isCompositeType (scope : Scope) (name : String) : Bool :=
  (scope.get? name).any Definition.isComposite

def field? (scope : Scope) (type name : String) : Option FieldDef :=
  if name = "__schema" ∧ type = scope.query ∧ scope.introspection then some Introspection.schemaField
  else ((scope.get? type).map Definition.linkFields).bind fun fields => fields.find? (·.name == name)

def possibleTypes (scope : Scope) (name : String) : List String :=
  match scope.get? name with
  | some (.object ..) => [name]
  | some (.union _ members) => members
  | some (.interface ..) =>
    scope.definitions.filterMap fun
      | (object, .object _ interfaces _) => if name ∈ interfaces then some object else none
      | _ => none
  | _ => []

def overlaps (scope : Scope) (a b : String) : Bool :=
  a == b || (scope.possibleTypes a).any fun name => name ∈ scope.possibleTypes b

end Scope

namespace Validity

/-- Values of a built-in scalar; a type that is none accepts all. -/
def fitsBuiltin (name : String) (value : Value) : Bool :=
  match name, value with
  | "Int", .int n => n < signed64Bound
  | "Int", _ => false
  | "Float", .int _ | "Float", .float _ => true
  | "Float", _ => false
  | "String", .string _ => true
  | "String", _ => false
  | "Boolean", .boolean _ => true
  | "Boolean", _ => false
  | "ID", .string _ => true
  | "ID", .int n => n < signed64Bound
  | "ID", _ => false
  | _, _ => true

def isOptional (field : InputDef) : Bool :=
  !field.type.isNonNull || field.default.isSome

def unwrapped : TypeRef → TypeRef
  | .nonNull inner => unwrapped inner
  | .list item => unwrapped item
  | type => type

def listItem? : TypeRef → Option TypeRef
  | .nonNull inner => listItem? inner
  | .list item => some item
  | .named _ => none

def plainName? : TypeRef → Option String
  | .nonNull inner => plainName? inner
  | .list _ => none
  | .named name => some name

/-- Null fits where no wrapper on the way to the first list asks for a value. -/
def fitsNull : TypeRef → Bool
  | .nonNull _ => false
  | _ => true

/-- An enum value may be given by its name as a string; an input type checks objects alone. -/
def leafFits (scope : Scope) (type : TypeRef) (value : Value) : Bool :=
  match type with
  | .named name =>
    if isBuiltinScalar name then fitsBuiltin name value
    else match scope.get? name, value with
      | some (.enum _ values), .enum item => values.contains item
      | some (.enum _ values), .string item => values.contains item
      | some (.enum ..), _ => false
      | _, _ => true
  | _ => true

mutual

/-- A single value is accepted where a list is asked for. -/
def fits (scope : Scope) (type : TypeRef) : Value → Bool
  | .null => fitsNull type
  | .list items =>
    match listItem? type with
    | some item => itemsFit scope item items
    | none => leafFits scope (unwrapped type) (.list [])
  | .object fields =>
    match unwrapped type with
    | .named name =>
      match scope.get? name with
      | some (.input _ declared) =>
        fieldsFit scope declared fields
          && declared.all fun field => isOptional field || (Table.get? fields field.name).isSome
      | _ => leafFits scope (.named name) (.object [])
    | _ => true
  | value => leafFits scope (unwrapped type) value

def itemsFit (scope : Scope) (type : TypeRef) : List Value → Bool
  | [] => true
  | item :: rest => fits scope type item && itemsFit scope type rest

def fieldsFit (scope : Scope) (declared : List InputDef) : List (String × Value) → Bool
  | [] => true
  | (name, value) :: rest =>
    (match declared.find? (·.name == name) with
      | some field => fits scope field.type value
      | none => false)
      && fieldsFit scope declared rest

end

mutual

def usages (scope : Scope) (type : Option TypeRef) : Literal → List (String × Option TypeRef)
  | .var name => [(name, type)]
  | .list items => itemUsages scope (type.bind listItem?) items
  | .object fields =>
    let declared := match (type.bind plainName?).bind scope.get? with
      | some (.input _ declared) => declared
      | _ => []
    fieldUsages scope declared fields
  | _ => []

def itemUsages (scope : Scope) (type : Option TypeRef) : List Literal → List (String × Option TypeRef)
  | [] => []
  | item :: rest => usages scope type item ++ itemUsages scope type rest

def fieldUsages (scope : Scope) (declared : List InputDef) :
    List (String × Literal) → List (String × Option TypeRef)
  | [] => []
  | (name, item) :: rest =>
    usages scope ((declared.find? (·.name == name)).map InputDef.type) item
      ++ fieldUsages scope declared rest

end

/-- A nullable variable with a default never yields null for want of a value. -/
def offeredType (var : Variable) : TypeRef :=
  let type := TypeRef.ofSignature var.type
  if var.default.isSome && !type.isNonNull then .nonNull type else type

def usageFits (request : Request) (usage : String × Option TypeRef) : Bool :=
  match request.vars.find? (·.name == usage.1) with
  | none => false
  | some var => usage.2.all fun type => type.admitsVariable (offeredType var)

def argumentFits (scope : Scope) (request : Request) (field : FieldDef)
    (argument : String × Literal) : Bool :=
  match field.arguments.find? (·.name == argument.1) with
  | none => false
  | some declared =>
    (usages scope (some declared.type) argument.2).all (usageFits request)
      && match argument.2.bind request.supplied with
        | .ok value => fits scope declared.type value
        | .error _ => true

/-- Every given argument is declared and fits, none is given twice, and none that is needed is
missing. -/
def argumentsFit (scope : Scope) (request : Request) (field : FieldDef) (head : FieldHead) : Bool :=
  head.arguments.all (argumentFits scope request field)
    && (head.arguments.map Prod.fst).Nodup
    && field.arguments.all fun declared =>
      isOptional declared || (Table.get? head.arguments declared.name).isSome

mutual

/-- Whether a selection may be made on a type. Only composite types are selected further. -/
def selectionFits (scope : Scope) (request : Request) (type : String) : Selection → Bool
  | .leaf head =>
    head.isTypename || match scope.field? type head.name with
      | none => false
      | some field =>
        argumentsFit scope request field head && !scope.isCompositeType field.type.namedType
  | .branch head selections =>
    head.isTypename || match scope.field? type head.name with
    | none => false
    | some field =>
      argumentsFit scope request field head && scope.isCompositeType field.type.namedType
        && selectionsFit scope request field.type.namedType selections
  | .fragment none selections => selectionsFit scope request type selections
  | .fragment (some condition) selections =>
    scope.isCompositeType condition && scope.overlaps type condition
      && selectionsFit scope request condition selections

def selectionsFit (scope : Scope) (request : Request) (type : String) : List Selection → Bool
  | [] => true
  | selection :: rest =>
    selectionFits scope request type selection && selectionsFit scope request type rest

end

def headVariables (head : FieldHead) : List String :=
  (head.arguments.flatMap fun argument => usages default none argument.2).map Prod.fst

mutual

def usedVariables : Selection → List String
  | .leaf head => if head.isTypename then [] else headVariables head
  | .branch head selections =>
    if head.isTypename then [] else headVariables head ++ allUsedVariables selections
  | .fragment _ selections => allUsedVariables selections

def allUsedVariables : List Selection → List String
  | [] => []
  | selection :: rest => usedVariables selection ++ allUsedVariables rest

end

/-- Only a nullable variable may have a default. -/
def variableFits (scope : Scope) (var : Variable) : Bool :=
  let type := TypeRef.ofSignature var.type
  scope.isInputType type.namedType
    && var.default.all fun literal =>
      !type.isNonNull && ((literal.bind []).toOption.any (fits scope type))

end Validity

/-- Whether the variables are well declared and all used, and every selection fits the root. -/
def Request.isValid (request : Request) (scope : Scope) (root : String) : Bool :=
  request.vars.all (Validity.variableFits scope)
    && (request.vars.map Variable.name).Nodup
    && request.vars.all (fun var =>
      (Validity.allUsedVariables request.selections).contains var.name)
    && Validity.selectionsFit scope request root request.selections
    && request.isMergeable

end Schemata.GraphQL
