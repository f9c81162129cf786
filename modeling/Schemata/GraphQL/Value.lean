import Schemata.Json.Basic
import Schemata.Decimal.Shortest

namespace Schemata.GraphQL

inductive Value
  | null
  | boolean (value : Bool)
  | int (value : Int)
  | float (value : Binary64)
  | string (text : String)
  | enum (name : String)
  | list (items : List Value)
  | object (fields : List (String × Value))
  deriving Inhabited

namespace Value

/-- There is no constant for a float that is not finite; 0 stands for it. -/
def ofFloat (value : Binary64) : Value :=
  if value.isFinite then .float value else .int 0

/-- An integer of a signed or of an unsigned word stays one; any other counts as a float. -/
def ofInteger (value : Int) : Value :=
  match (Json.int value).asInt64? with
  | some signed => .int signed
  | none =>
    match (Json.int value).asUnsigned64? with
    | some unsigned => .int unsigned
    | none => ofFloat (.ofInt value)

mutual

def ofJson : Json → Value
  | .null => .null
  | .bool value => .boolean value
  | .int value => ofInteger value
  | .float value => ofFloat value
  | .str text => .string text
  | .arr items => .list (ofItems items)
  | .obj members => .object (ofMembers members)

def ofItems : List Json → List Value
  | [] => []
  | item :: rest => ofJson item :: ofItems rest

def ofMembers : List (String × Json) → List (String × Value)
  | [] => []
  | (name, value) :: rest => (name, ofJson value) :: ofMembers rest

end

mutual

def toJson : Value → Json
  | .null => .null
  | .boolean value => .bool value
  | .int value => .int value
  | .float value => .float value
  | .string text => .str text
  | .enum name => .str name
  | .list items => .arr (itemsToJson items)
  | .object fields => Json.object (fieldsToJson fields)

def itemsToJson : List Value → List Json
  | [] => []
  | item :: rest => item.toJson :: itemsToJson rest

def fieldsToJson : List (String × Value) → List (String × Json)
  | [] => []
  | (name, value) :: rest => (name, value.toJson) :: fieldsToJson rest

end

def isControl (c : Char) : Bool :=
  c.toNat < 0x20 || (0x7f ≤ c.toNat && c.toNat < 0xa0)

/-- Controls without a short form are spelled by their decimal code, padded to four digits. -/
def escapeChar (c : Char) : String :=
  if c = '"' then "\\\""
  else if c = '\\' then "\\\\"
  else if c = '\n' then "\\n"
  else if c = '\r' then "\\r"
  else if c = '\t' then "\\t"
  else if isControl c then
    let code := toString c.toNat
    "\\u" ++ String.ofList (List.replicate (4 - code.length) '0') ++ code
  else String.singleton c

def quote (text : String) : String :=
  text.toList.foldl (fun out c => out ++ escapeChar c) "\"" ++ "\""

mutual

def text : Value → String
  | .null => "null"
  | .boolean true => "true"
  | .boolean false => "false"
  | .int value => toString value
  | .float value => value.text
  | .string value => quote value
  | .enum name => name
  | .list items => "[" ++ ", ".intercalate (itemTexts items) ++ "]"
  | .object fields => "\x7b" ++ ", ".intercalate (fieldTexts fields) ++ "\x7d"

def itemTexts : List Value → List String
  | [] => []
  | item :: rest => text item :: itemTexts rest

def fieldTexts : List (String × Value) → List String
  | [] => []
  | (name, value) :: rest => (name ++ ": " ++ text value) :: fieldTexts rest

end

end Value

end Schemata.GraphQL
