import Schemata.Catalog.Lineage

namespace Schemata

/-- A field as seen from a type, with the type that declared it. -/
structure SeenField where
  owner : String
  declaration : FieldDeclaration
  deriving Inhabited

abbrev FieldSet := Table SeenField

namespace FieldSet

/-- An own field takes the place of an inherited one of its name; the others follow in order. -/
def overlay (inherited : FieldSet) (owner : String) (own : List FieldDeclaration) : FieldSet :=
  own.foldl (fun fields field => Table.insert fields field.name ⟨owner, field⟩) inherited

end FieldSet

abbrev FieldCache := Table FieldSet

namespace Catalog

/-- Goes down a chain from its root, continuing from the cached sets met on the way. -/
def descend (catalog : Catalog) : List String → FieldSet → FieldCache → FieldSet × FieldCache
  | [], fields, cache => (fields, cache)
  | type :: rest, fields, cache =>
    match Table.get? cache type with
    | some known => catalog.descend rest known cache
    | none =>
      match catalog.get? type with
      | none => catalog.descend rest fields cache
      | some entry =>
        let fields := fields.overlay type entry.fields
        catalog.descend rest fields (Table.insert cache type fields)

def fieldsOf (catalog : Catalog) (cache : FieldCache) (name : String) :
    Except Problem FieldSet × FieldCache :=
  match Table.get? cache name with
  | some known => (.ok known, cache)
  | none =>
    match catalog.lineage name with
    | .error problem => (.error problem, cache)
    | .ok chain =>
      let (fields, cache) := catalog.descend chain.reverse [] cache
      (.ok fields, cache)

def fieldsOfEach (catalog : Catalog) : List String → FieldCache →
    List (Except Problem FieldSet) × FieldCache
  | [], cache => ([], cache)
  | name :: rest, cache =>
    let (answer, cache) := catalog.fieldsOf cache name
    let (answers, cache) := catalog.fieldsOfEach rest cache
    (answer :: answers, cache)

structure Flattening where
  cache : FieldCache := []
  resolved : Table FieldSet := []
  problems : List Problem := []

def flattenStep (catalog : Catalog) (state : Flattening) (name : String) : Flattening :=
  match catalog.fieldsOf state.cache name with
  | (.ok fields, cache) =>
    { state with cache := cache, resolved := Table.insert state.resolved name fields }
  | (.error problem, cache) =>
    { state with cache := cache, problems := noteOnce state.problems problem }

def allFields (catalog : Catalog) : Except GenerationError (Table FieldSet) :=
  let state := (Table.keys catalog.types).foldl catalog.flattenStep {}
  unlessProblems state.problems state.resolved

end Catalog

end Schemata
