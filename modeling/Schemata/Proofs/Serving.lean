import Schemata.LiveSchema
import Schemata.Proofs.Analysis

namespace Schemata.LiveSchema

open GraphQL

def answers (live : LiveSchema) : List Registry → List (Except Failure TypeGraph)
  | [] => []
  | registry :: rest => (live.rebuild registry).1 :: answers (live.rebuild registry).2 rest

/-- The graphs that have been built, in the order of the rebuilds. -/
def built (answers : List (Except Failure TypeGraph)) : List TypeGraph :=
  answers.filterMap Except.toOption

/-- What a live schema shows after rebuilds with these answers. -/
structure Shows (live : LiveSchema) (answers : List (Except Failure TypeGraph)) : Prop where
  graph : live.graph = (built answers).getLast?
  get : ∀ graph, live.graph = some graph → live.get = .ok graph
  execute : ∀ graph, live.graph = some graph →
    ∀ request, live.execute request = .ok (graph.execute request)
  get_fails : live.get = .error .schemaUnavailable ↔ ∀ graph, .ok graph ∉ answers
  execute_fails : ∀ request,
    live.execute request = .error .schemaUnavailable ↔ ∀ graph, .ok graph ∉ answers
  uninitialized : live.state = .uninitialized ↔ answers = []
  ready : live.state = .ready ↔ ∃ graph, answers.getLast? = some (.ok graph)
  failed : live.state = .failed ↔ ∃ failure, answers.getLast? = some (.error failure)
  lastError_isSome : live.lastError.isSome = true ↔ live.state = .failed
  lastError : ∀ failure, answers.getLast? = some (.error failure) →
    ∃ error, failure = .buildFailed error ∧ live.lastError = some error.message

/-- All that a rebuild can do. -/
theorem rebuild_cases (live : LiveSchema) (registry : Registry) :
    ∃ runs,
      (∃ graph, TypeGraph.ofRegistry live.config registry live.classes = .ok graph ∧
        live.rebuild registry = (.ok graph,
          { live with graph := some graph, state := .ready, lastError := none, runs := runs })) ∨
      ∃ error, TypeGraph.ofRegistry live.config registry live.classes = .error error ∧
        live.rebuild registry = (.error (.buildFailed error),
          { live with state := .failed, lastError := some error.message, runs := runs }) := by
  refine ⟨readRequested live.config.analysisOptions registry live.classes live.runs, ?_⟩
  cases hbuilt : TypeGraph.ofRegistry live.config registry live.classes with
  | ok graph => exact Or.inl ⟨graph, rfl, by rw [rebuild, hbuilt]⟩
  | error error => exact Or.inr ⟨error, rfl, by rw [rebuild, hbuilt]⟩

theorem rebuild_answer (live : LiveSchema) (registry : Registry) :
    (live.rebuild registry).1 =
      (TypeGraph.ofRegistry live.config registry live.classes).mapError .buildFailed := by
  obtain ⟨runs, ⟨graph, hbuilt, he⟩ | ⟨error, hbuilt, he⟩⟩ := live.rebuild_cases registry <;>
    rw [he, hbuilt] <;> rfl

/-- A rebuild changes neither the configuration nor the classes. -/
theorem rebuild_settings (live : LiveSchema) (registry : Registry) :
    (live.rebuild registry).2.config = live.config ∧
      (live.rebuild registry).2.classes = live.classes := by
  obtain ⟨runs, ⟨graph, -, he⟩ | ⟨error, -, he⟩⟩ := live.rebuild_cases registry <;>
    rw [he] <;> exact ⟨rfl, rfl⟩

def stateAfter : Option (Except Failure TypeGraph) → SchemaState
  | none => .uninitialized
  | some (.ok _) => .ready
  | some (.error _) => .failed

def textAfter : Option (Except Failure TypeGraph) → Option String
  | some (.error failure) => failure.cause?
  | _ => none

/-- What holds of a live schema after rebuilds with these answers. -/
structure Follows (live : LiveSchema) (answers : List (Except Failure TypeGraph)) : Prop where
  graph : live.graph = (built answers).getLast?
  state : live.state = stateAfter answers.getLast?
  lastError : live.lastError = textAfter answers.getLast?
  failures : ∀ failure, .error failure ∈ answers → ∃ error, failure = .buildFailed error

theorem follows_new (config : SchemaConfig) (classes : List TypeName) :
    (new config classes).Follows [] :=
  ⟨rfl, rfl, rfl, fun _ h => absurd h List.not_mem_nil⟩

theorem Follows.rebuild {live : LiveSchema} {answers : List (Except Failure TypeGraph)}
    (h : live.Follows answers) (registry : Registry) :
    (live.rebuild registry).2.Follows (answers ++ [(live.rebuild registry).1]) := by
  obtain ⟨runs, ⟨graph, -, he⟩ | ⟨error, -, he⟩⟩ := live.rebuild_cases registry
  · rw [he]
    refine ⟨?_, ?_, ?_, ?_⟩
    · simp [built, Except.toOption]
    · rw [List.getLast?_concat]
      rfl
    · rw [List.getLast?_concat]
      rfl
    · intro failure hfailure
      exact h.failures failure (by simpa using hfailure)
  · rw [he]
    refine ⟨?_, ?_, ?_, ?_⟩
    · rw [h.graph]
      simp [built, Except.toOption]
    · rw [List.getLast?_concat]
      rfl
    · rw [List.getLast?_concat]
      rfl
    · intro failure hfailure
      rcases List.mem_append.mp hfailure with hbefore | hlast
      · exact h.failures failure hbefore
      · obtain rfl := Except.error.inj (List.mem_singleton.mp hlast)
        exact ⟨error, rfl⟩

theorem rebuildAll_append (live : LiveSchema) (earlier later : List Registry) :
    live.rebuildAll (earlier ++ later) = (live.rebuildAll earlier).rebuildAll later :=
  List.foldl_append

theorem Follows.rebuildAll {live : LiveSchema} {before : List (Except Failure TypeGraph)}
    (h : live.Follows before) (registries : List Registry) :
    (live.rebuildAll registries).Follows (before ++ live.answers registries) := by
  induction registries generalizing live before with
  | nil => rwa [answers, List.append_nil]
  | cons registry rest ih =>
    have hstep := ih (h.rebuild registry)
    rwa [List.append_assoc, List.singleton_append] at hstep

/-- Each rebuild answers as if it were the first. -/
theorem answers_eq (live : LiveSchema) (registries : List Registry) :
    live.answers registries = registries.map fun registry =>
      (TypeGraph.ofRegistry live.config registry live.classes).mapError .buildFailed := by
  induction registries generalizing live with
  | nil => rfl
  | cons registry rest ih =>
    obtain ⟨hconfig, hclasses⟩ := live.rebuild_settings registry
    rw [answers, ih, rebuild_answer, hconfig, hclasses, List.map_cons]

theorem mem_built {answers : List (Except Failure TypeGraph)} {graph : TypeGraph} :
    graph ∈ built answers ↔ .ok graph ∈ answers := by
  rw [built, List.mem_filterMap]
  constructor
  · rintro ⟨answer, hanswer, hgraph⟩
    cases answer with
    | error => cases hgraph
    | ok => exact Option.some.inj hgraph ▸ hanswer
  · intro h
    exact ⟨_, h, rfl⟩

theorem built_eq_nil_iff {answers : List (Except Failure TypeGraph)} :
    built answers = [] ↔ ∀ graph, .ok graph ∉ answers := by
  simp only [List.eq_nil_iff_forall_not_mem, mem_built]

theorem get_of_graph {live : LiveSchema} {graph : TypeGraph} (h : live.graph = some graph) :
    live.get = .ok graph := by
  rw [get, h]

theorem get_eq_unavailable_iff {live : LiveSchema} :
    live.get = .error .schemaUnavailable ↔ live.graph = none := by
  rw [get]
  cases live.graph <;> simp

theorem execute_eq_unavailable_iff {live : LiveSchema} {request : Request} :
    live.execute request = .error .schemaUnavailable ↔ live.graph = none := by
  rw [execute, get]
  cases live.graph <;> simp [Except.map]

theorem Follows.shows {live : LiveSchema} {answers : List (Except Failure TypeGraph)}
    (h : live.Follows answers) : live.Shows answers := by
  have hunserved : live.graph = none ↔ ∀ graph, .ok graph ∉ answers := by
    rw [h.graph, List.getLast?_eq_none_iff, built_eq_nil_iff]
  refine
    { graph := h.graph
      get := fun _ => get_of_graph
      execute := ?_
      get_fails := get_eq_unavailable_iff.trans hunserved
      execute_fails := fun _ => execute_eq_unavailable_iff.trans hunserved
      uninitialized := ?_
      ready := ?_
      failed := ?_
      lastError_isSome := ?_
      lastError := ?_ }
  · intro graph hgraph request
    rw [execute, get_of_graph hgraph]
    rfl
  · rw [h.state, ← List.getLast?_eq_none_iff]
    rcases answers.getLast? with _ | _ | _ <;> simp [stateAfter]
  · rw [h.state]
    rcases answers.getLast? with _ | _ | _ <;> simp [stateAfter]
  · rw [h.state]
    rcases answers.getLast? with _ | _ | _ <;> simp [stateAfter]
  · rw [h.state, h.lastError]
    cases hlast : answers.getLast? with
    | none => simp [stateAfter, textAfter]
    | some answer =>
      cases answer with
      | ok graph => simp [stateAfter, textAfter]
      | error failure =>
        obtain ⟨error, rfl⟩ := h.failures failure (List.mem_of_getLast? hlast)
        simp [stateAfter, textAfter, Failure.cause?]
  · intro failure hfailure
    obtain ⟨error, rfl⟩ := h.failures failure (List.mem_of_getLast? hfailure)
    refine ⟨error, rfl, ?_⟩
    rw [h.lastError, hfailure]
    rfl

/-- Rebuilds that fail leave the graph in place, and those that succeed replace it. -/
theorem Follows.graph_rebuildAll {live : LiveSchema} {before : List (Except Failure TypeGraph)}
    (h : live.Follows before) (registries : List Registry) :
    (live.rebuildAll registries).graph =
      (built (live.answers registries)).getLast?.or live.graph := by
  rw [(h.rebuildAll registries).graph, h.graph, built, List.filterMap_append,
    List.getLast?_append]
  rfl

/-- After any rebuilds the graph is that of the last one that succeeded, while the state and the text
of an error tell of the last one. Once a graph is served some graph is, and only a rebuild that
succeeds replaces it. -/
theorem rebuildAll_shows (config : SchemaConfig) (classes : List TypeName)
    (registries : List Registry) :
    ((new config classes).rebuildAll registries).Shows ((new config classes).answers registries) ∧
    ((new config classes).answers registries = registries.map fun registry =>
      (TypeGraph.ofRegistry config registry classes).mapError .buildFailed) ∧
    ∀ later, ((new config classes).rebuildAll (registries ++ later)).graph =
      (built (((new config classes).rebuildAll registries).answers later)).getLast?.or
        ((new config classes).rebuildAll registries).graph := by
  have hfollows := (follows_new config classes).rebuildAll registries
  rw [List.nil_append] at hfollows
  refine ⟨hfollows.shows, answers_eq _ _, fun later => ?_⟩
  rw [rebuildAll_append]
  exact hfollows.graph_rebuildAll later

-- An empty registry cannot be built, and the kennel is still served.
example : (((new {} [.literal "Store"]).rebuildAll [.kennel, {}]).graph.map (·.model.query.name),
    ((new {} [.literal "Store"]).rebuildAll [.kennel, {}]).state) = (some "Query", .failed) := by
  decide +kernel

end Schemata.LiveSchema
