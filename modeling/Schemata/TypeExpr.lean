import Schemata.Signature
import Schemata.TypeName

namespace Schemata

/-- A declared type: a name under any nesting of list and non-null. -/
inductive TypeExpr
  | named (name : TypeName)
  | list (item : TypeExpr)
  | nonNull (inner : TypeExpr)
  deriving DecidableEq, Inhabited

namespace TypeExpr

/-- Wraps in non-null, unless the type already is. -/
def required : TypeExpr → TypeExpr
  | .nonNull inner => .nonNull inner
  | type => .nonNull type

def inner : TypeExpr → TypeName
  | .named name => name
  | .list item => item.inner
  | .nonNull inner => inner.inner

def signature (names : ElementNames) : TypeExpr → Signature
  | .named name => .named (name.resolve names)
  | .list item => .list (item.signature names)
  | .nonNull inner => .nonNull (inner.signature names)

def ofReversed : List Char → TypeExpr
  | '!' :: rest => (ofReversed rest).required
  | ']' :: rest =>
    match rest.getLast? with
    | some '[' => .list (ofReversed rest.dropLast)
    | _ => .named (.literal (String.ofList (rest.reverse ++ [']'])))
  | text => .named (.literal (String.ofList text.reverse))
termination_by text => text.length
decreasing_by
  · exact Nat.lt_succ_self _
  · simp only [List.length_dropLast, List.length_cons]; omega

/-- The type that a text such as `[ID!]!` denotes. -/
def ofText (text : String) : TypeExpr :=
  ofReversed text.toList.reverse

end TypeExpr

end Schemata
