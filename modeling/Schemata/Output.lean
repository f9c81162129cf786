import Schemata.Json.Basic
import Schemata.TypeName

namespace Schemata

mutual

inductive Output
  | null
  | scalar (value : Json)
  | list (items : List Output)
  | record (record : Record)

/-- Fields stand in the order in which they were first set. -/
structure Record where
  tag : Option TypeName
  fields : List (String × Output)

end

instance : Inhabited Output := ⟨.null⟩
instance : Inhabited Record := ⟨⟨none, []⟩⟩

namespace Record

def set (record : Record) (name : String) (value : Output) : Record :=
  { record with fields := Table.insert record.fields name value }

def get? (record : Record) (name : String) : Option Output :=
  Table.get? record.fields name

def settled (record : Record) : Record :=
  { record with tag := record.tag.map TypeName.settled }

end Record

namespace Output

def isNull : Output → Bool
  | .null => true
  | _ => false

def asRecord? : Output → Option Record
  | .record found => some found
  | _ => none

mutual

def toJson : Output → Json
  | .null => .null
  | .scalar value => value
  | .list items => .arr (itemsToJson items)
  | .record ⟨_, fields⟩ => Json.object (fieldsToJson fields)

def itemsToJson : List Output → List Json
  | [] => []
  | item :: rest => item.toJson :: itemsToJson rest

def fieldsToJson : List (String × Output) → List (String × Json)
  | [] => []
  | (name, value) :: rest => (name, value.toJson) :: fieldsToJson rest

end

mutual

/-- Objects become untagged records, arrays lists and null the null output. -/
def ofJson : Json → Output
  | .null => .null
  | .arr items => .list (ofItems items)
  | .obj members => .record ⟨none, ofMembers members⟩
  | .bool value => .scalar (.bool value)
  | .int value => .scalar (.int value)
  | .float value => .scalar (.float value)
  | .str text => .scalar (.str text)

def ofItems : List Json → List Output
  | [] => []
  | item :: rest => ofJson item :: ofItems rest

def ofMembers : List (String × Json) → List (String × Output)
  | [] => []
  | (name, value) :: rest => (name, ofJson value) :: ofMembers rest

end

/-- A scalar that holds a null, an array or an object is opened into the output that it denotes. -/
def opened : Output → Output
  | .scalar .null => .null
  | .scalar (.arr items) => ofJson (.arr items)
  | .scalar (.obj members) => ofJson (.obj members)
  | output => output

end Output

namespace Record

def toJson (record : Record) : Json :=
  (Output.record record).toJson

end Record

end Schemata
