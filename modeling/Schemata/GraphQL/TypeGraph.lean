import Schemata.SchemaConfig
import Schemata.GraphQL.Arguments
import Schemata.GraphQL.Completion
import Schemata.GraphQL.Merge
import Schemata.GraphQL.SchemaCheck
import Schemata.GraphQL.Sdl
import Schemata.GraphQL.Validity

namespace Schemata.GraphQL

structure TypeGraph where
  config : SchemaConfig
  model : SchemaModel
  shaping : Shaping
  definitions : Definitions
  deriving Inhabited

namespace TypeGraph

def ofModel (config : SchemaConfig) (model : SchemaModel) : Except GenerationError TypeGraph :=
  let definitions := Definitions.ofModel model
  match definitions.check with
  | .ok () => .ok ⟨config, model, .ofTypes model.toTypeSystem, definitions⟩
  | .error fault => .error ⟨[.rejected fault.message]⟩

def ofRegistry (config : SchemaConfig) (registry : Registry) (classes : List TypeName) :
    Except GenerationError TypeGraph := do
  let model ← analyze config.analysisOptions registry classes
  ofModel config model

def mutationName (graph : TypeGraph) : Option String :=
  graph.model.mutation.map RootType.name

def discriminator? (graph : TypeGraph) (abstract : String) : Option Discriminator :=
  Table.get? graph.shaping.discriminators abstract

def sdl (graph : TypeGraph) : String :=
  Sdl.document graph.definitions graph.model.query.name graph.mutationName

def debugText (graph : TypeGraph) : String :=
  "ResolvedTypeGraph \x7b query: " ++ Quoted.debug graph.model.query.name
    ++ ", types: " ++ toString graph.model.typeNames.length
    ++ ", discriminators: " ++ toString graph.shaping.discriminators.length ++ " \x7d"

def scope (graph : TypeGraph) : Scope :=
  { definitions := graph.definitions
    query := graph.model.query.name
    mutation := graph.mutationName
    introspection := graph.config.introspection }

/-- Arguments that are not given take their emitted default. -/
def providedArguments (field : FieldDef) (given : Table Value) : Table Value :=
  field.arguments.foldl
    (fun provided argument =>
      match argument.default with
      | some value =>
        if Table.contains provided argument.name then provided
        else Table.insert provided argument.name value
      | none => provided)
    given

/-- A field without a handler reads the entry of its name in the parent record. -/
def fieldOutput (graph : TypeGraph) (field : ModelField) (parent : Option Record)
    (provided : Table Value) : Except FieldError Output :=
  match field.handler with
  | some handler =>
    let arguments := handlerArguments graph.model.inputs field.arguments provided
    match handler ⟨parent, arguments⟩ with
    | .ok output => .ok output
    | .error error => .error (Failure.resolver error).toFieldError
  | none => .ok ((parent.bind (·.get? field.name)).getD .null)

def resolveField (graph : TypeGraph) (bindings : Bindings) (object : String) (field : ModelField)
    (head : FieldHead) (parent : Option Record) : Except FieldError (Option Shaped) :=
  match bindFields bindings head.arguments with
  | .error name => .error ⟨s!"Variable {name} is not defined.", none⟩
  | .ok given =>
    let provided := providedArguments (.ofField field) given
    match graph.fieldOutput field parent provided with
    | .error error => .error error
    | .ok output => graph.shaping.shape (object ++ "." ++ field.name) field.type output

/-- A fragment applies to the object it is bound to and to those that declare its interface. -/
def applies (graph : TypeGraph) (object condition : String) : Bool :=
  condition == object ||
    match Table.get? graph.definitions object with
    | some (.object _ interfaces _) => interfaces.contains condition
    | _ => false

def objectField? (graph : TypeGraph) (object name : String) : Option ModelField :=
  match Table.get? graph.definitions object with
  | some (.object _ _ fields) => fields.find? (·.name == name)
  | _ => none

def answerField (graph : TypeGraph) (bindings : Bindings) (object : String) (parent : Option Record)
    (head : FieldHead) (onObject : OnObject) : Answer Json :=
  match graph.objectField? object head.name with
  | none => ⟨none, []⟩
  | some field =>
    match graph.resolveField bindings object field head parent with
    | .error error => .fail error
    | .ok value => Completion.complete graph.definitions onObject (.ofSignature field.type) value

/-- The entries answered so far; a failed field leaves none. -/
structure Entries where
  members : List (String × Json) := []
  errors : List FieldError := []
  deriving Inhabited

namespace Entries

def add (entries : Entries) (key : String) (answer : Answer Json) : Entries :=
  { members := match answer.value with
      | some value => mergeMembers entries.members [(key, value)]
      | none => entries.members
    errors := entries.errors ++ answer.errors }

def toJson (entries : Entries) : Json :=
  if entries.members.isEmpty then .null else .obj entries.members

def toAnswer (entries : Entries) : Answer Json :=
  ⟨some entries.toJson, entries.errors⟩

end Entries

mutual

def answerSelection (graph : TypeGraph) (bindings : Bindings) (object : String)
    (parent : Option Record) : Selection → Entries → Entries
  | .leaf head, entries =>
    if head.isTypename then entries.add head.key (.ok (.str object))
    else
      entries.add head.key
        (graph.answerField bindings object parent head fun _ _ => .ok .null)
  | .branch head selections, entries =>
    if head.isTypename then entries.add head.key (.ok (.str object))
    else if head.name = "__schema" ∧ object = graph.model.query.name then
      let description := Introspection.describe graph.model.query.name graph.mutationName
      entries.add head.key (.ok (Json.object (Introspection.selectAll description selections)))
    else
      entries.add head.key
        (graph.answerField bindings object parent head fun name record =>
          (answerSelections graph bindings name record selections {}).toAnswer)
  | .fragment none selections, entries =>
    answerSelections graph bindings object parent selections entries
  | .fragment (some condition) selections, entries =>
    if graph.applies object condition then
      answerSelections graph bindings object parent selections entries
    else entries

def answerSelections (graph : TypeGraph) (bindings : Bindings) (object : String)
    (parent : Option Record) : List Selection → Entries → Entries
  | [], entries => entries
  | selection :: rest, entries =>
    answerSelections graph bindings object parent rest
      (answerSelection graph bindings object parent selection entries)

end

inductive Response
  | refused
  | limited (message : String)
  | answered (data : Json) (errors : List FieldError)
  deriving DecidableEq, Inhabited

def maxNesting : Nat := 32

/-- The answer at the root that the request is put to. The limits are checked before the request
is held against the schema. -/
def executeAt (graph : TypeGraph) (root : String) (request : Request) : Response :=
  if graph.config.maxComplexity < complexities request.selections then
    .limited "Query is too complex."
  else if graph.config.maxDepth < depths request.selections then
    .limited "Query is nested too deep."
  else if !request.isValid graph.scope root then .refused
  else
    let entries := graph.answerSelections request.bindings root none request.selections {}
    .answered entries.toJson (entries.errors.mergeSort FieldError.le)

def execute (graph : TypeGraph) (request : Request) : Response :=
  if !request.isSpelled || maxNesting < nestings request.selections then .refused
  else match graph.scope.root? request.operation with
    | none => .refused
    | some root => graph.executeAt root request

end TypeGraph

end Schemata.GraphQL
