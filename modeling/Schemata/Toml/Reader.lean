import Schemata.Toml.Quoted

namespace Schemata.Toml

def isBareKeyChar (c : Char) : Bool :=
  c.isAlphanum || c = '_' || c = '-'

/-- One part of a key; texts over several lines are no keys. -/
def keyPart : Reader String
  | '"' :: rest => basicRest (rest.length + 1) [] rest
  | '\'' :: rest => literalRest rest
  | input =>
    match input.span isBareKeyChar with
    | ([], _) => none
    | (part, rest) => some (String.ofList part, rest)

def key : Nat → Reader (List String)
  | 0, _ => none
  | fuel + 1, input =>
    match keyPart (skipSpaces input) with
    | none => none
    | some (part, rest) =>
      match skipSpaces rest with
      | '.' :: rest =>
        match key fuel rest with
        | some (parts, rest) => some (part :: parts, rest)
        | none => none
      | rest => some ([part], rest)

def comment? : List Char → Option (List Char)
  | '#' :: rest =>
    let (text, rest) := rest.span fun c => c != '\n' && c != '\r'
    if text.all isPlain then some rest else none
  | rest => some rest

def skipGaps : Nat → List Char → Option (List Char)
  | 0, input => some input
  | fuel + 1, input => do
    let rest ← comment? (skipSpaces input)
    match newline? rest with
    | some rest => skipGaps fuel rest
    | none => if rest.head? = some '\r' then none else some rest

mutual

def value : Nat → Reader Value
  | 0, _ => none
  | fuel + 1, input =>
    match input with
    | '[' :: rest => arrayItems fuel [] rest
    | '{' :: rest => tableEntries fuel .empty rest
    | '"' :: _ | '\'' :: _ => (quoted input).map fun (text, rest) => (.string text, rest)
    | input =>
      let (word, rest) := splitWord input
      (scalar? word).map (·, rest)

/-- Items up to the closing bracket; a comma may follow the last one. -/
def arrayItems : Nat → List Value → Reader Value
  | 0, _, _ => none
  | fuel + 1, done, input =>
    match skipGaps input.length input with
    | none => none
    | some (']' :: rest) => some (.array done.reverse, rest)
    | some input =>
      match value fuel input with
      | none => none
      | some (item, rest) =>
        match skipGaps rest.length rest with
        | some (',' :: rest) => arrayItems fuel (item :: done) rest
        | some (']' :: rest) => some (.array (item :: done).reverse, rest)
        | _ => none

def tableEntries : Nat → OpenTable → Reader Value
  | 0, _, _ => none
  | fuel + 1, table, input =>
    match skipGaps input.length input with
    | none => none
    | some ('}' :: rest) => some (.table (closeEntries table.entries), rest)
    | some input =>
      match assignment fuel table input with
      | none => none
      | some (table, rest) =>
        match skipGaps rest.length rest with
        | some (',' :: rest) => tableEntries fuel table rest
        | some ('}' :: rest) => some (.table (closeEntries table.entries), rest)
        | _ => none

def assignment : Nat → OpenTable → Reader OpenTable
  | 0, _, _ => none
  | fuel + 1, table, input =>
    match key input.length input with
    | some (path, '=' :: rest) =>
      match value fuel (skipSpaces rest) with
      | some (found, rest) => (table.assign path found).map (·, rest)
      | none => none
    | _ => none

end

/-- The document so far and the path of the header that its next keys belong to. -/
structure Progress where
  root : OpenTable := .empty
  current : List String := []

/-- A header in brackets, doubled for a row of an array of tables. -/
def headerLine (progress : Progress) (input : List Char) : Option (Progress × List Char) :=
  match input with
  | '[' :: '[' :: rest => do
    let (path, rest) ← key rest.length rest
    match rest with
    | ']' :: ']' :: rest => pure (⟨← progress.root.header true path, path⟩, rest)
    | _ => none
  | '[' :: rest => do
    let (path, rest) ← key rest.length rest
    match rest with
    | ']' :: rest => pure (⟨← progress.root.header false path, path⟩, rest)
    | _ => none
  | _ => none

def keyLine (progress : Progress) (input : List Char) : Option (Progress × List Char) := do
  let (path, rest) ← key input.length input
  match rest with
  | '=' :: rest =>
    let (found, rest) ← value (rest.length + 1) (skipSpaces rest)
    let root ← progress.root.edit .passed progress.current (·.assign path found)
    pure (⟨root, progress.current⟩, rest)
  | _ => none

def line (progress : Progress) (input : List Char) : Option (Progress × List Char) :=
  match skipSpaces input with
  | [] => some (progress, [])
  | '\n' :: rest => some (progress, '\n' :: rest)
  | '\r' :: rest => some (progress, '\r' :: rest)
  | '#' :: rest => some (progress, '#' :: rest)
  | '[' :: rest => headerLine progress ('[' :: rest)
  | input => keyLine progress input

def lines : Nat → Progress → List Char → Option OpenTable
  | 0, _, _ => none
  | fuel + 1, progress, input => do
    let (progress, rest) ← line progress input
    let rest ← comment? (skipSpaces rest)
    if rest.isEmpty then pure progress.root
    else lines fuel progress (← newline? rest)

def skipMark : List Char → List Char
  | '\ufeff' :: rest => rest
  | input => input

/-- The entries of a document, unless its text breaks a rule. -/
def read? (text : String) : Option (List (String × Value)) :=
  let input := skipMark text.toList
  (lines (input.length + 1) {} input).map fun root => closeEntries root.entries

end Schemata.Toml
