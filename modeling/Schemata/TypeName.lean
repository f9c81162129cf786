import Schemata.Table

namespace Schemata

/-- A host type used as an identity, known by its full path. -/
structure Element where
  path : String
  deriving DecidableEq, Inhabited

/-- The path without its type arguments, after the last path separator. -/
def Element.ident (element : Element) : String :=
  let head := ((element.path.splitOn "<").head?).getD ""
  ((head.splitOn "::").getLast?).getD ""

abbrev ElementNames := Table String

namespace ElementNames

def insert (names : ElementNames) (element : Element) (name : String) : ElementNames :=
  Table.insert names element.path name

def nameOf (names : ElementNames) (element : Element) : String :=
  (Table.get? names element.path).getD element.ident

end ElementNames

/-- `deferred cell thunk` keeps in `cell` the name that its thunk returns, once it has run. -/
inductive TypeName
  | literal (text : String)
  | element (host : Element)
  | deferred (cell : Nat) (thunk : TypeName)
  deriving DecidableEq, Inhabited

/-- The cells whose thunks have run, the last run first. -/
abbrev ThunkRuns := List Nat

namespace TypeName

def resolve (names : ElementNames) : TypeName → String
  | .literal text => text
  | .element host => names.nameOf host
  | .deferred _ thunk => thunk.resolve names

/-- Resolves a name, running the thunk of each cell on the way that is still empty. -/
def read (names : ElementNames) : TypeName → ThunkRuns → String × ThunkRuns
  | .literal text, runs => (text, runs)
  | .element host, runs => (names.nameOf host, runs)
  | .deferred cell thunk, runs =>
    thunk.read names (if cell ∈ runs then runs else cell :: runs)

def readAll (names : ElementNames) (list : List TypeName) (runs : ThunkRuns) : ThunkRuns :=
  list.foldl (fun runs name => (name.read names runs).2) runs

def isEvaluated (runs : ThunkRuns) : TypeName → Bool
  | .deferred cell _ => runs.contains cell
  | _ => true

/-- What a log shows of a name; no thunk is run for it. -/
def debugText (runs : ThunkRuns) : TypeName → String
  | .literal text => text
  | .element host => "<" ++ host.ident ++ ">"
  | .deferred cell thunk => if cell ∈ runs then thunk.debugText runs else "<deferred>"

def settled : TypeName → TypeName
  | .deferred _ thunk => thunk.settled
  | name => name

end TypeName

end Schemata
