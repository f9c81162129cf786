import Schemata.Failure
import Schemata.GraphQL.Value
import Schemata.TypeSystem

namespace Schemata.GraphQL

/-- A record at an abstract type carries the concrete type that was decided for it. -/
inductive Shaped
  | plain (value : Value)
  | list (items : List Shaped)
  | record (record : Record) (concrete : Option String)
  deriving Inhabited

structure Shaping where
  types : TypeSystem
  discriminators : Table Discriminator
  deriving Inhabited

namespace Shaping

def ofTypes (types : TypeSystem) : Shaping :=
  let names := Table.keys types.interfaces ++ Table.keys types.unions
  { types := types
    discriminators := Table.insertAll []
      (names.filterMap fun name => (types.discriminator? name).map fun found => (name, found)) }

/-- A record made as another type than the object type it is returned for is refused. -/
def checkTag (shaping : Shaping) (record : Record) (type path : String) :
    Except FieldError Shaped :=
  let made := record.tag.map fun tag => tag.resolve shaping.types.elements
  match made with
  | none => .ok (.record record none)
  | some made =>
    if made = type then .ok (.record record.settled none)
    else .error (Failure.discrimination (.notAnImplementer type path made)).toFieldError

/-- At a type without fields a record counts as the document it denotes. -/
def shapeRecord (shaping : Shaping) (record : Record) (type path : String) :
    Except FieldError Shaped :=
  match shaping.types.kindOf type with
  | some .object => shaping.checkTag record type path
  | some .interface | some .union =>
    match Table.get? shaping.discriminators type with
    | none => .error Failure.schemaUnavailable.toFieldError
    | some discriminator =>
      match discriminator.discriminate record path with
      | .ok concrete => .ok (.record record.settled (some concrete))
      | .error error => .error (Failure.discrimination error).toFieldError
  | _ => .ok (.plain (.ofJson record.toJson))

def shapeScalar (shaping : Shaping) (value : Json) (type : String) : Shaped :=
  match shaping.types.kindOf type, value with
  | some .enum, .str name => .plain (.enum name)
  | _, value => .plain (.ofJson value)

def shapeNamed (shaping : Shaping) (type path : String) (output : Output) :
    Except FieldError (Option Shaped) :=
  match output.opened with
  | .null => .ok none
  | .list _ => .error ⟨s!"Field \"{path}\" must not resolve to a list", none⟩
  | .record record => (shaping.shapeRecord record type path).map some
  | .scalar value => .ok (some (shaping.shapeScalar value type))

/-- Non-null wrappers are passed through; each list wrapper asks for a list, in which a null item
stays a plain null. -/
def shape (shaping : Shaping) (path : String) :
    Signature → Output → Except FieldError (Option Shaped)
  | .nonNull inner, output => shaping.shape path inner output
  | .list item, output =>
    match output.opened with
    | .null => .ok none
    | .list items =>
      (items.mapM fun output =>
        (shaping.shape path item output).map fun value => value.getD (.plain .null)).map
        fun values => some (.list values)
    | _ => .error ⟨s!"Field \"{path}\" must resolve to a list", none⟩
  | .named name, output => shaping.shapeNamed name path output

end Shaping

end Schemata.GraphQL
