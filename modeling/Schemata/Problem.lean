import Schemata.Declared.Types

namespace Schemata

inductive NamedKind
  | declared (kind : TypeKind)
  | scalar
  | enum
  | union
  deriving DecidableEq, Inhabited

def NamedKind.describe : NamedKind → String
  | .declared kind => kind.lowerLabel
  | .scalar => "scalar"
  | .enum => "enum"
  | .union => "union"

inductive Position
  | input
  | output
  deriving DecidableEq, Inhabited

namespace Position

def label : Position → String
  | .input => "input"
  | .output => "output"

def accepts : Position → NamedKind → Bool
  | .output, .declared kind => kind.isOutput
  | .input, .declared kind => kind == .input
  | .output, .union => true
  | .input, .union => false
  | _, .scalar | _, .enum => true

end Position

inductive Mention
  | fieldOwner (field : String)
  | extendsEdge (parent : String)
  | implementsEdge (interface : String)
  | lineage
  | extendsClause (type : String)
  | implementsClause (type : String)
  | unionMembers (union : String)
  deriving DecidableEq, Inhabited

def Mention.text : Mention → String
  | .fieldOwner field => s!"field \"{field}\""
  | .extendsEdge parent => s!"an extends edge to \"{parent}\""
  | .implementsEdge interface => s!"an implements edge to \"{interface}\""
  | .lineage => "an extension chain"
  | .extendsClause type => s!"the extends clause of \"{type}\""
  | .implementsClause type => s!"the implements clause of \"{type}\""
  | .unionMembers union => s!"union \"{union}\""

/-- How an argument of an object's field disagrees with the interface's field. -/
inductive ArgumentMismatch
  | missing (expected : Signature)
  | differs (expected found : Signature)
  | mustBeNullable (found : Signature)
  deriving DecidableEq, Inhabited

def ArgumentMismatch.text : ArgumentMismatch → String
  | .missing expected => s!"missing, expected {expected.text}"
  | .differs expected found => s!"expected {expected.text}, found {found.text}"
  | .mustBeNullable found => s!"additional argument of type {found.text} must be nullable"

inductive Problem
  | duplicateType (name : String)
  | undeclaredType (name : String) (mention : Mention)
  | conflictingParents (type first second : String)
  | cyclicExtension (chain : List String)
  | incompatibleExtension (type : String) (kind : TypeKind) (parent : String) (parentKind : TypeKind)
  | implementsOnNonObject (type : String) (kind : TypeKind) (interface : String)
  | notAnInterface (object name : String)
  | missingInterfaceField (interface object field : String)
  | interfaceFieldMismatch (interface object field : String) (expected found : Signature)
  | interfaceArgumentMismatch (interface object field argument : String) (mismatch : ArgumentMismatch)
  | unresolvableReference (owner field reference : String)
  | invalidPosition (owner field reference : String) (kind : NamedKind) (position : Position)
  | invalidUnionMember (union member : String)
  | notAnArgumentSet (owner field reference : String)
  | misplacedResolver (type : String) (kind : TypeKind) (field : String)
  | duplicateRootField (operation : Operation) (field first second : String)
  | unknownResolverClass (name : String)
  | emptyQueryRoot
  | rejected (reason : String)
  deriving DecidableEq, Inhabited

def Problem.message : Problem → String
  | .duplicateType name => s!"Type \"{name}\" is declared more than once"
  | .undeclaredType name mention =>
    s!"Type \"{name}\" is referenced by {mention.text} but was never declared"
  | .conflictingParents type first second =>
    s!"Type \"{type}\" extends both \"{first}\" and \"{second}\"; only one parent is allowed"
  | .cyclicExtension chain => "Cyclic extension chain detected: " ++ " -> ".intercalate chain
  | .incompatibleExtension type kind parent parentKind =>
    s!"{kind.label} \"{type}\" cannot extend {parentKind.label} \"{parent}\""
  | .implementsOnNonObject type kind interface =>
    s!"{kind.label} \"{type}\" cannot implement interfaces (attempted \"{interface}\")"
  | .notAnInterface object name =>
    s!"Object type \"{object}\" implements \"{name}\", which is not an interface type"
  | .missingInterfaceField interface object field =>
    s!"Interface \"{interface}\" requires field \"{field}\" but object type \"{object}\" does not provide it"
  | .interfaceFieldMismatch interface object field expected found =>
    s!"Field \"{field}\" of object type \"{object}\" has type {found.text} but interface \"{interface}\" declares it as {expected.text}"
  | .interfaceArgumentMismatch interface object field argument mismatch =>
    s!"Argument \"{argument}\" of field \"{object}.{field}\" does not match interface \"{interface}\": {mismatch.text}"
  | .unresolvableReference owner field reference =>
    s!"Field \"{owner}.{field}\" references unknown type \"{reference}\""
  | .invalidPosition owner field reference kind position =>
    s!"Field \"{owner}.{field}\" cannot use {kind.describe} \"{reference}\" in {position.label} position"
  | .invalidUnionMember union member => s!"Union \"{union}\" member \"{member}\" must be an object type"
  | .notAnArgumentSet owner field reference =>
    s!"Field \"{owner}.{field}\" takes arguments from \"{reference}\", which is not an argument-set type"
  | .misplacedResolver type kind field =>
    s!"Field \"{type}.{field}\" of {kind.label} \"{type}\" cannot carry a resolver"
  | .duplicateRootField operation field first second =>
    s!"{operation.label} root field \"{field}\" is registered by both \"{first}\" and \"{second}\""
  | .unknownResolverClass name => s!"Resolver class \"{name}\" has no registered resolver methods"
  | .emptyQueryRoot => "Schema must contain at least one query field"
  | .rejected reason => s!"Schema rejected by the execution library: {reason}"

def Problem.code : Problem → String
  | .duplicateType .. => "DuplicateType"
  | .undeclaredType .. => "UndeclaredType"
  | .conflictingParents .. => "ConflictingParents"
  | .cyclicExtension .. => "CyclicExtension"
  | .incompatibleExtension .. => "IncompatibleExtension"
  | .implementsOnNonObject .. => "ImplementsOnNonObject"
  | .notAnInterface .. => "NotAnInterface"
  | .missingInterfaceField .. => "MissingInterfaceField"
  | .interfaceFieldMismatch .. => "InterfaceFieldMismatch"
  | .interfaceArgumentMismatch .. => "InterfaceArgumentMismatch"
  | .unresolvableReference .. => "UnresolvableTypeReference"
  | .invalidPosition .. => "InvalidTypePosition"
  | .invalidUnionMember .. => "InvalidUnionMember"
  | .notAnArgumentSet .. => "NotAnArgumentSet"
  | .misplacedResolver .. => "MisplacedResolver"
  | .duplicateRootField .. => "DuplicateRootField"
  | .unknownResolverClass .. => "UnknownResolverClass"
  | .emptyQueryRoot => "EmptyQueryRoot"
  | .rejected .. => "Protocol"

def noteOnce (problems : List Problem) (problem : Problem) : List Problem :=
  if problem ∈ problems then problems else problems ++ [problem]

/-- The problems of the first failing stage, in the order of their discovery. -/
structure GenerationError where
  problems : List Problem
  deriving DecidableEq, Inhabited

namespace GenerationError

def message (error : GenerationError) : String :=
  error.problems.foldl (fun text problem => text ++ "\n  - " ++ problem.message)
    s!"Schema generation failed with {error.problems.length} problem(s):"

def occursIn (needle : List Char) : List Char → Bool
  | [] => needle.isEmpty
  | c :: rest => needle.isPrefixOf (c :: rest) || occursIn needle rest

def mentions (error : GenerationError) (needle : String) : Bool :=
  error.problems.any fun problem => occursIn needle.toList problem.message.toList

end GenerationError

/-- The value of a stage that found nothing wrong. -/
def unlessProblems {α : Type} (problems : List Problem) (value : α) : Except GenerationError α :=
  if problems.isEmpty then .ok value else .error ⟨problems⟩

end Schemata
