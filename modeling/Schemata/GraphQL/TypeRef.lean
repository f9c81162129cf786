import Schemata.Signature

namespace Schemata.GraphQL

inductive TypeRef
  | named (name : String)
  | list (item : TypeRef)
  | nonNull (inner : TypeRef)
  deriving DecidableEq, Inhabited

namespace TypeRef

def ofSignature : Signature → TypeRef
  | .named name => .named name
  | .list item => .list (ofSignature item)
  | .nonNull inner => .nonNull (ofSignature inner)

def text : TypeRef → String
  | .named name => name
  | .list item => "[" ++ item.text ++ "]"
  | .nonNull inner => inner.text ++ "!"

def namedType : TypeRef → String
  | .named name => name
  | .list item => item.namedType
  | .nonNull inner => inner.namedType

def isNonNull : TypeRef → Bool
  | .nonNull _ => true
  | _ => false

def admits : TypeRef → TypeRef → Bool
  | .nonNull a, .nonNull b => a.admits b
  | a, .nonNull b => a.admits b
  | .named a, .named b => a == b
  | .list a, .list b => a.admits b
  | _, _ => false

/-- Whether a variable of the second type may stand where the first is asked for. Lists are asked
for and given with the same outer nullability. -/
def admitsVariable : TypeRef → TypeRef → Bool
  | .nonNull a, .nonNull b => a.admitsVariable b
  | .named a, .nonNull b => admitsVariable (.named a) b
  | .named a, .named b => a == b
  | .list a, .list b => a.admitsVariable b
  | _, _ => false

end TypeRef

end Schemata.GraphQL
