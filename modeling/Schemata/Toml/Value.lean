import Schemata.Table

namespace Schemata.Toml

inductive Value
  | string (text : String)
  | integer (value : Int)
  | float (text : String)
  | boolean (value : Bool)
  | datetime (text : String)
  | array (items : List Value)
  | table (entries : List (String × Value))
  deriving Inhabited

/-- How a table came to be: by its own header, on the way to a longer header, or by a dotted key. -/
inductive Origin
  | header
  | passed
  | dotted
  deriving DecidableEq, Inhabited

/-- A part of a document in the making. A value is closed; tables may still grow. -/
inductive Node
  | value (value : Value)
  | table (origin : Origin) (entries : List (String × Node))
  | rows (rows : List (List (String × Node)))
  deriving Inhabited

structure OpenTable where
  origin : Origin
  entries : Table Node
  deriving Inhabited

namespace OpenTable

def empty : OpenTable := ⟨.header, []⟩

def put (table : OpenTable) (key : String) (node : Node) : OpenTable :=
  { table with entries := Table.insert table.entries key node }

def splitLast? {α : Type} (list : List α) : Option (List α × α) :=
  list.getLast?.map fun last => (list.dropLast, last)

/-- Edits the table at the end of a path. Missing tables on the way are made with the given
origin; of an array of tables the last row is meant. A dotted key cannot enter a table that has a
header. -/
def edit (origin : Origin) : List String → (OpenTable → Option OpenTable) → OpenTable → Option OpenTable
  | [], change, table => change table
  | key :: path, change, table =>
    match Table.get? table.entries key with
    | none => do
      let child ← edit origin path change ⟨origin, []⟩
      pure (table.put key (.table child.origin child.entries))
    | some (.table childOrigin entries) =>
      if origin = .dotted ∧ childOrigin = .header then none
      else do
        let child ← edit origin path change ⟨childOrigin, entries⟩
        pure (table.put key (.table child.origin child.entries))
    | some (.rows rows) => do
      let (front, last) ← splitLast? rows
      let child ← edit origin path change ⟨.header, last⟩
      pure (table.put key (.rows (front ++ [child.entries])))
    | some (.value _) => none

/-- A key is set once, and a dotted one only in a table that dotted keys made. -/
def setEntry (dotted : Bool) (key : String) (value : Value) (table : OpenTable) : Option OpenTable :=
  if dotted = (table.origin = .dotted) ∧ (Table.get? table.entries key).isNone then
    some (table.put key (.value value))
  else none

def assign (path : List String) (value : Value) (table : OpenTable) : Option OpenTable := do
  let (path, key) ← splitLast? path
  edit .dotted path (setEntry (!path.isEmpty) key value) table

/-- A table has one header, which may follow headers of tables below it. -/
def openHeader (key : String) (table : OpenTable) : Option OpenTable :=
  match Table.get? table.entries key with
  | none => some (table.put key (.table .header []))
  | some (.table .passed entries) => some (table.put key (.table .header entries))
  | some _ => none

def openRow (key : String) (table : OpenTable) : Option OpenTable :=
  match Table.get? table.entries key with
  | none => some (table.put key (.rows [[]]))
  | some (.rows rows) => some (table.put key (.rows (rows ++ [[]])))
  | some _ => none

def header (isRow : Bool) (path : List String) (table : OpenTable) : Option OpenTable := do
  let (path, key) ← splitLast? path
  edit .passed path (if isRow then openRow key else openHeader key) table

end OpenTable

mutual

def Node.close : Node → Value
  | .value value => value
  | .table _ entries => .table (closeEntries entries)
  | .rows rows => .array (closeRows rows)

def closeEntries : List (String × Node) → List (String × Value)
  | [] => []
  | (key, node) :: rest => (key, node.close) :: closeEntries rest

def closeRows : List (List (String × Node)) → List Value
  | [] => []
  | entries :: rest => .table (closeEntries entries) :: closeRows rest

end

end Schemata.Toml
