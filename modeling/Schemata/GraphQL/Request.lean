import Schemata.Declared.Types
import Schemata.GraphQL.Value

namespace Schemata.GraphQL

inductive Literal
  | null
  | boolean (value : Bool)
  | int (value : Int)
  | float (value : Binary64)
  | string (text : String)
  | enum (name : String)
  | var (name : String)
  | list (items : List Literal)
  | object (fields : List (String × Literal))
  deriving Inhabited

structure FieldHead where
  name : String
  key : String
  arguments : List (String × Literal)
  deriving Inhabited

/-- The field that tells the name of the object. It is neither counted nor checked. -/
def FieldHead.isTypename (head : FieldHead) : Bool :=
  head.name == "__typename"

/-- A leaf has no selection of its own; a fragment may be bound to a type. -/
inductive Selection
  | leaf (head : FieldHead)
  | branch (head : FieldHead) (selections : List Selection)
  | fragment (condition : Option String) (selections : List Selection)
  deriving Inhabited

structure Variable where
  name : String
  type : Signature
  value : Option Json
  default : Option Literal
  deriving Inhabited

structure Request where
  operation : Operation
  vars : List Variable
  selections : List Selection
  deriving Inhabited

abbrev Bindings := Table Value

mutual

def Literal.bind (bindings : Bindings) : Literal → Except String Value
  | .null => .ok .null
  | .boolean value => .ok (.boolean value)
  | .int value => .ok (.int value)
  | .float value => .ok (.float value)
  | .string text => .ok (.string text)
  | .enum name => .ok (.enum name)
  | .var name =>
    match Table.get? bindings name with
    | some value => .ok value
    | none => .error name
  | .list items => (bindItems bindings items).map .list
  | .object fields => (bindFields bindings fields).map .object

def bindItems (bindings : Bindings) : List Literal → Except String (List Value)
  | [] => .ok []
  | item :: rest => do
    let value ← item.bind bindings
    let values ← bindItems bindings rest
    pure (value :: values)

def bindFields (bindings : Bindings) : List (String × Literal) → Except String (List (String × Value))
  | [] => .ok []
  | (name, item) :: rest => do
    let value ← item.bind bindings
    let values ← bindFields bindings rest
    pure ((name, value) :: values)

end

/-- A supplied value counts before the default; a nullable variable without either is null. -/
def Variable.bound? (var : Variable) : Option Value :=
  match var.value, var.default with
  | some value, _ => some (.ofJson value)
  | none, some literal => (literal.bind []).toOption
  | none, none => if var.type.isNonNull then none else some .null

def Request.bindings (request : Request) : Bindings :=
  request.vars.filterMap fun var => var.bound?.map fun value => (var.name, value)

def Request.supplied (request : Request) : Bindings :=
  request.vars.filterMap fun var =>
    var.value.map fun value => (var.name, .ofJson value)

mutual

def Selection.complexity : Selection → Nat
  | .leaf head => if head.isTypename then 0 else 1
  | .branch head selections => if head.isTypename then 0 else complexities selections + 1
  | .fragment _ selections => complexities selections

def complexities : List Selection → Nat
  | [] => 0
  | selection :: rest => selection.complexity + complexities rest

end

mutual

/-- The deepest nesting of fields; fragments add nothing. -/
def Selection.depth : Selection → Nat
  | .leaf head => if head.isTypename then 0 else 1
  | .branch head selections => if head.isTypename then 0 else depths selections + 1
  | .fragment _ selections => depths selections

def depths : List Selection → Nat
  | [] => 0
  | selection :: rest => max selection.depth (depths rest)

end

mutual

/-- The deepest nesting of selection sets, those of fragments included. -/
def Selection.nesting : Selection → Nat
  | .leaf _ => 0
  | .branch _ selections => nestings selections + 1
  | .fragment _ selections => nestings selections + 1

def nestings : List Selection → Nat
  | [] => 0
  | selection :: rest => max selection.nesting (nestings rest)

end

def isNameStart (c : Char) : Bool :=
  c.isAlpha || c = '_'

def isName (text : String) : Bool :=
  match text.toList with
  | [] => false
  | c :: rest => isNameStart c && rest.all fun c => c.isAlphanum || c = '_'

mutual

def Literal.isSpelled : Literal → Bool
  | .enum name => isName name && name ∉ ["true", "false", "null"]
  | .var name => isName name
  | .list items => itemsSpelled items
  | .object fields => fieldsSpelled fields
  | _ => true

def itemsSpelled : List Literal → Bool
  | [] => true
  | item :: rest => item.isSpelled && itemsSpelled rest

def fieldsSpelled : List (String × Literal) → Bool
  | [] => true
  | (name, item) :: rest => isName name && item.isSpelled && fieldsSpelled rest

end

def FieldHead.isSpelled (head : FieldHead) : Bool :=
  isName head.name && isName head.key
    && head.arguments.all fun (name, literal) => isName name && literal.isSpelled

mutual

/-- Whether a selection can be written down: names are names, and no selection set is empty. -/
def Selection.isSpelled : Selection → Bool
  | .leaf head => head.isSpelled
  | .branch head selections =>
    head.isSpelled && !selections.isEmpty && selectionsSpelled selections
  | .fragment condition selections =>
    condition.all isName && !selections.isEmpty && selectionsSpelled selections

def selectionsSpelled : List Selection → Bool
  | [] => true
  | selection :: rest => selection.isSpelled && selectionsSpelled rest

end

def Variable.isSpelled (var : Variable) : Bool :=
  isName var.name && isName var.type.namedType && var.default.all Literal.isSpelled

def Request.isSpelled (request : Request) : Bool :=
  request.vars.all Variable.isSpelled && !request.selections.isEmpty
    && selectionsSpelled request.selections

end Schemata.GraphQL
