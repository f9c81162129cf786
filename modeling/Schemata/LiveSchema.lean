import Schemata.GraphQL.TypeGraph

namespace Schemata

open GraphQL

inductive SchemaState
  | uninitialized
  | ready
  | failed
  deriving DecidableEq, Inhabited

def SchemaState.text : SchemaState → String
  | .uninitialized => "Uninitialized"
  | .ready => "Ready"
  | .failed => "Failed"

/-- `lastError` is the text of the last rebuild's error; `runs` tells which class names have been
read. -/
structure LiveSchema where
  config : SchemaConfig
  classes : List TypeName
  graph : Option TypeGraph := none
  state : SchemaState := .uninitialized
  lastError : Option String := none
  runs : ThunkRuns := []
  deriving Inhabited

namespace LiveSchema

def new (config : SchemaConfig) (classes : List TypeName) : LiveSchema :=
  { config := config, classes := classes }

def rebuild (live : LiveSchema) (registry : Registry) : Except Failure TypeGraph × LiveSchema :=
  let runs := readRequested live.config.analysisOptions registry live.classes live.runs
  match TypeGraph.ofRegistry live.config registry live.classes with
  | .ok graph =>
    (.ok graph, { live with graph := some graph, state := .ready, lastError := none, runs := runs })
  | .error error =>
    (.error (.buildFailed error),
      { live with state := .failed, lastError := some error.message, runs := runs })

def rebuildAll (live : LiveSchema) (registries : List Registry) : LiveSchema :=
  registries.foldl (fun live registry => (live.rebuild registry).2) live

def get (live : LiveSchema) : Except Failure TypeGraph :=
  match live.graph with
  | some graph => .ok graph
  | none => .error .schemaUnavailable

def execute (live : LiveSchema) (request : Request) : Except Failure TypeGraph.Response :=
  live.get.map fun graph => graph.execute request

def debugText (live : LiveSchema) : String :=
  "LiveSchema \x7b state: " ++ live.state.text ++ ", resolver_classes: ["
    ++ ", ".intercalate (live.classes.map (·.debugText live.runs)) ++ "] \x7d"

end LiveSchema

end Schemata
