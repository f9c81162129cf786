namespace Schemata

def builtinScalars : List String := ["Int", "Float", "String", "Boolean", "ID"]

def isBuiltinScalar (name : String) : Bool :=
  builtinScalars.contains name

inductive Signature
  | named (name : String)
  | list (item : Signature)
  | nonNull (inner : Signature)
  deriving DecidableEq, Inhabited

namespace Signature

def namedType : Signature → String
  | .named name => name
  | .list item => item.namedType
  | .nonNull inner => inner.namedType

def isNonNull : Signature → Bool
  | .nonNull _ => true
  | _ => false

def listDepth : Signature → Nat
  | .named _ => 0
  | .list item => item.listDepth + 1
  | .nonNull inner => inner.listDepth

def text : Signature → String
  | .named name => name
  | .list item => "[" ++ item.text ++ "]"
  | .nonNull inner => inner.text ++ "!"

end Signature

end Schemata
