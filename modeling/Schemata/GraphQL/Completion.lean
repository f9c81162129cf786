import Schemata.GraphQL.Definition
import Schemata.GraphQL.Shaped

namespace Schemata.GraphQL

/-- An answer together with the errors met on the way; `none` stands for a field that failed. -/
structure Answer (α : Type) where
  value : Option α
  errors : List FieldError := []
  deriving Inhabited

namespace Answer

def ok {α : Type} (value : α) : Answer α := ⟨some value, []⟩

def fail {α : Type} (error : FieldError) : Answer α := ⟨none, [error]⟩

def internal {α : Type} (message : String) : Answer α := fail ⟨"internal: " ++ message, none⟩

def map {α β : Type} (f : α → β) (answer : Answer α) : Answer β :=
  ⟨answer.value.map f, answer.errors⟩

end Answer

abbrev OnObject := String → Option Record → Answer Json

namespace Completion

def invalidAbstract (kind name : String) : Answer Json :=
  .internal s!"invalid value for {kind} \"{name}\", expected \"FieldValue::WithType\""

def completeEnum (name : String) (values : List String) : Shaped → Answer Json
  | .plain (.enum item) | .plain (.string item) =>
    if item ∈ values then .ok (.str item) else .internal s!"invalid item for enum \"{name}\""
  | _ => .internal s!"invalid item for enum \"{name}\""

def completeLeaf : Shaped → Answer Json
  | .plain value => .ok value.toJson
  | .record record _ => .ok record.toJson
  | .list _ => .ok .null

def recordOf? : Shaped → Option Record
  | .record record _ => some record
  | _ => none

def completeNamed (definitions : Definitions) (onObject : OnObject) (name : String)
    (value : Shaped) : Answer Json :=
  match Table.get? definitions name with
  | some (.object ..) => onObject name (recordOf? value)
  | some (.enum _ values) => completeEnum name values value
  | some (.interface ..) =>
    match value with
    | .record record (some concrete) => onObject concrete (some record)
    | _ => invalidAbstract "interface" name
  | some (.union ..) =>
    match value with
    | .record record (some concrete) => onObject concrete (some record)
    | _ => invalidAbstract "union" name
  | _ => completeLeaf value

def completeItems (complete : Shaped → Answer Json) : List Shaped → Answer (List Json)
  | [] => .ok []
  | item :: rest =>
    let first := complete item
    match first.value with
    | none => ⟨none, first.errors⟩
    | some value =>
      let others := completeItems complete rest
      ⟨others.value.map (value :: ·), first.errors ++ others.errors⟩

def completeValue (definitions : Definitions) (onObject : OnObject) : TypeRef → Shaped → Answer Json
  | .nonNull inner, value => completeValue definitions onObject inner value
  | .list item, .list items => (completeItems (completeValue definitions onObject item) items).map .arr
  | .list _, _ => .internal "expects an array"
  | .named name, value => completeNamed definitions onObject name value

/-- Only a field that yields nothing at all is held against a non-null type. -/
def complete (definitions : Definitions) (onObject : OnObject) (type : TypeRef) :
    Option Shaped → Answer Json
  | some value => completeValue definitions onObject type value
  | none => if type.isNonNull then .internal "non-null types require a return value" else .ok .null

end Completion

end Schemata.GraphQL
