import Schemata.Output
import Schemata.Decimal.Shortest

namespace Schemata

structure ResolverError where
  message : String
  deriving DecidableEq, Inhabited

/-- `parent` is the record the field is resolved on; a root field has none. -/
structure ResolverInput where
  parent : Option Record
  arguments : Table Json
  deriving Inhabited

abbrev Handler := ResolverInput → Except ResolverError Output

abbrev RecordTest := Record → Bool

abbrev TypeStrategy := Record → Option String

inductive ArgumentType
  | unsigned8
  | unsigned32
  | signed64
  | float64
  | boolean
  | string
  | signed64List
  | document
  deriving DecidableEq, Inhabited

inductive ArgumentFault
  | wrongKind (found : Json) (expected : String)
  | outOfRange (value : Int) (expected : String)
  deriving DecidableEq

namespace ResolverInput

/-- A null argument counts as absent. -/
def arg? (input : ResolverInput) (name : String) : Option Json :=
  (Table.get? input.arguments name).filter fun value => !value.isNull

def text? (input : ResolverInput) (name : String) : Option String :=
  (input.arg? name).bind Json.asText?

def int64? (input : ResolverInput) (name : String) : Option Int :=
  (input.arg? name).bind Json.asInt64?

def bool? (input : ResolverInput) (name : String) : Option Bool :=
  (input.arg? name).bind Json.asBool?

end ResolverInput

namespace Quoted

def hiddenRanges : List (Nat × Nat) :=
  [(0x00, 0x1f), (0x7f, 0xa0), (0xad, 0xad), (0x300, 0x36f), (0x483, 0x489), (0x591, 0x5bd),
   (0x600, 0x605), (0x610, 0x61a), (0x61c, 0x61c), (0x64b, 0x65f), (0x670, 0x670), (0x6dd, 0x6dd),
   (0x70f, 0x70f), (0x180b, 0x180f), (0x1680, 0x1680), (0x1ab0, 0x1ace), (0x1dc0, 0x1dff),
   (0x2000, 0x200f), (0x2028, 0x202f), (0x205f, 0x206f), (0x20d0, 0x20f0), (0x302a, 0x302f),
   (0x3000, 0x3000), (0x3099, 0x309a), (0xd800, 0xf8ff), (0xfe00, 0xfe0f), (0xfe20, 0xfe2f),
   (0xfeff, 0xfeff), (0xfff0, 0xfffb), (0xfffe, 0xffff), (0xe0000, 0x10ffff)]

def isHidden (c : Char) : Bool :=
  hiddenRanges.any fun (low, high) => low ≤ c.toNat && c.toNat ≤ high

def escapeChar (c : Char) : String :=
  if c = '"' then "\\\""
  else if c = '\\' then "\\\\"
  else if c = '\n' then "\\n"
  else if c = '\r' then "\\r"
  else if c = '\t' then "\\t"
  else if c.toNat = 0 then "\\0"
  else if isHidden c then "\\u\x7b" ++ String.ofList (Nat.toDigits 16 c.toNat) ++ "\x7d"
  else String.singleton c

/-- A text between quotes, what does not print spelled by its code point. -/
def debug (text : String) : String :=
  text.toList.foldl (fun out c => out ++ escapeChar c) "\"" ++ "\""

end Quoted

namespace ArgumentFault

def marked (text : String) : String :=
  String.ofList ['\x60'] ++ text ++ String.ofList ['\x60']

def describe : Json → String
  | .null => "null"
  | .bool value => "boolean " ++ marked (if value then "true" else "false")
  | .int value => "integer " ++ marked (toString value)
  | .float value => "floating point " ++ marked value.text
  | .str text => "string " ++ Quoted.debug text
  | .arr _ => "sequence"
  | .obj _ => "map"

def message : ArgumentFault → String
  | .wrongKind found expected => "invalid type: " ++ describe found ++ ", expected " ++ expected
  | .outOfRange value expected =>
    "invalid value: integer " ++ marked (toString value) ++ ", expected " ++ expected

end ArgumentFault

namespace ArgumentType

def integer (low high : Int) (expected : String) : Json → Except ArgumentFault Json
  | .int value =>
    if low ≤ value ∧ value ≤ high then .ok (.int value) else .error (.outOfRange value expected)
  | other => .error (.wrongKind other expected)

def signedWord : Json → Except ArgumentFault Json :=
  integer (-signed64Bound) (signed64Bound - 1) "i64"

/-- The argument at this type; a number asked for as a float becomes one. -/
def convert : ArgumentType → Json → Except ArgumentFault Json
  | .unsigned8, value => integer 0 255 "u8" value
  | .unsigned32, value => integer 0 4294967295 "u32" value
  | .signed64, value => signedWord value
  | .float64, .float value => .ok (.float value)
  | .float64, .int value => .ok (.float (.ofInt value))
  | .float64, other => .error (.wrongKind other "f64")
  | .boolean, .bool value => .ok (.bool value)
  | .boolean, other => .error (.wrongKind other "a boolean")
  | .string, .str text => .ok (.str text)
  | .string, other => .error (.wrongKind other "a string")
  | .signed64List, .arr items =>
    (items.mapM signedWord).map .arr
  | .signed64List, other => .error (.wrongKind other "a sequence")
  | .document, value => .ok value

end ArgumentType

def ResolverInput.argumentAt (input : ResolverInput) (name : String) (type : ArgumentType) :
    Except ResolverError (Option Json) :=
  match input.arg? name with
  | none => .ok none
  | some value =>
    match type.convert value with
    | .ok converted => .ok (some converted)
    | .error fault => .error ⟨"JSON error: " ++ fault.message⟩

end Schemata
