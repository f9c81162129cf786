import Schemata.GraphQL.Definition

namespace Schemata.GraphQL.Sdl

def indent (level : Nat) : String :=
  String.ofList (List.replicate level '\t')

def description (level : Nat) (text : Option String) : String :=
  match text with
  | none => ""
  | some text =>
    let margin := indent level
    let lines := text.toList.flatMap fun c => if c = '\n' then '\n' :: margin.toList else [c]
    margin ++ "\"\"\"\n" ++ margin ++ String.ofList lines ++ "\n" ++ margin ++ "\"\"\"\n"

def input (definition : InputDef) : String :=
  definition.name ++ ": " ++ definition.type.text
    ++ match definition.default with
      | some value => " = " ++ value.text
      | none => ""

def escapeReason (text : String) : String :=
  text.toList.foldl
    (fun out c => out ++
      if c = '\\' then "\\\\"
      else if c = '\x08' then "\\b"
      else if c = '\x0c' then "\\f"
      else if c = '\n' then "\\n"
      else if c = '\r' then "\\r"
      else if c = '\t' then "\\t"
      else String.singleton c) ""

def deprecation (reason : Option String) : String :=
  match reason with
  | some reason => " @deprecated(reason: \"" ++ escapeReason reason ++ "\")"
  | none => ""

/-- One argument of a list in which some argument is described. -/
def describedArgument (separator : String) (argument : InputDef) : String :=
  separator
    ++ (if argument.description.isSome then "\n" else "")
    ++ description 2 argument.description ++ indent 2 ++ input argument

def arguments (list : List InputDef) : String :=
  match list with
  | [] => ""
  | first :: rest =>
    if list.any (·.description.isSome) then
      "(" ++ describedArgument "" first ++ String.join (rest.map (describedArgument ","))
        ++ "\n" ++ indent 1 ++ ")"
    else "(" ++ ", ".intercalate (list.map input) ++ ")"

def field (definition : FieldDef) : String :=
  description 1 definition.description ++ indent 1 ++ definition.name
    ++ arguments definition.arguments ++ ": " ++ definition.type.text
    ++ deprecation definition.deprecation ++ "\n"

def block (heading : String) (lines : List String) : String :=
  heading ++ " \x7b\n" ++ String.join lines ++ "\x7d\n"

/-- An interface does not show which ones it extends. -/
def definition (name : String) : Definition → String
  | .scalar text => description 0 text ++ "scalar " ++ name ++ "\n"
  | .enum text values =>
    description 0 text ++ block ("enum " ++ name) (values.map fun value => indent 1 ++ value ++ "\n")
  | .input text fields =>
    description 0 text ++ block ("input " ++ name)
      (fields.map fun field => description 1 field.description ++ indent 1 ++ input field ++ "\n")
  | .interface text _ fields =>
    description 0 text ++ block ("interface " ++ name) (fields.map field)
  | .object text interfaces fields =>
    let clause := if interfaces.isEmpty then "" else " implements " ++ " & ".intercalate interfaces
    description 0 text ++ block ("type " ++ name ++ clause) (fields.map fun f => field (.ofField f))
  | .union text members =>
    let clause := if members.isEmpty then "" else " " ++ " | ".intercalate members
    description 0 text ++ "union " ++ name ++ " =" ++ clause ++ "\n"

def hasDeprecation : Definition → Bool
  | .object _ _ fields => fields.any (·.deprecation.isSome)
  | _ => false

def deprecatedDirective : String :=
  description 0 (some "Marks an element of a GraphQL schema as no longer supported.")
    ++ "directive @deprecated(reason: String = \"No longer supported\") on FIELD_DEFINITION | ARGUMENT_DEFINITION | INPUT_FIELD_DEFINITION | ENUM_VALUE\n"

def conditionDirective (name action : String) : String :=
  let mark := String.singleton '\x60'
  description 0 (some ("Directs the executor to " ++ action ++ " this field or fragment "
      ++ (if name = "include" then "only when" else "when") ++ " the " ++ mark ++ "if" ++ mark
      ++ " argument is true."))
    ++ "directive @" ++ name ++ "(if: Boolean!) on FIELD | FRAGMENT_SPREAD | INLINE_FRAGMENT\n"

def roots (query : String) (mutation : Option String) : String :=
  block "schema" (
    [indent 1 ++ "query: " ++ query ++ "\n"]
    ++ mutation.toList.map fun name => indent 1 ++ "mutation: " ++ name ++ "\n")

/-- The directive for deprecation is shown if a field of some object is deprecated. -/
def document (definitions : Definitions) (query : String) (mutation : Option String) : String :=
  let sorted := definitions.mergeSort fun a b => decide (a.1 ≤ b.1)
  String.join (sorted.map fun entry => definition entry.1 entry.2 ++ "\n")
    ++ (if (Table.values definitions).any hasDeprecation then deprecatedDirective else "")
    ++ conditionDirective "include" "include"
    ++ conditionDirective "skip" "skip"
    ++ roots query mutation

end Schemata.GraphQL.Sdl
