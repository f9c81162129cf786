import Schemata.Catalog.Draft
import Schemata.Linking

namespace Schemata

structure AnalysisOptions where
  inheritInterfaceFields : Bool := true
  queryType : String := "Query"
  mutationType : String := "Mutation"
  deriving DecidableEq, Inhabited

structure Groundwork where
  catalog : Catalog
  effective : Table FieldSet
  types : TypeSystem
  findings : Findings
  deriving Inhabited

def Groundwork.ofRegistry (options : AnalysisOptions) (registry : Registry) :
    Except GenerationError Groundwork := do
  let catalog ← Catalog.ofRegistry registry
  let flattened ← catalog.allFields
  let (fulfilment, effective) := catalog.validate flattened options.inheritInterfaceFields
  let relation ← fulfilment
  let (types, findings) := (Linking.typeSystem catalog effective relation).run {}
  unlessProblems findings.problems ⟨catalog, effective, types, findings⟩

/-- Root fields chosen so far, and which class offers each of them. -/
structure RootDraft where
  query : List ModelField := []
  mutation : List ModelField := []
  offers : List ((Operation × String) × String) := []
  deriving Inhabited

namespace Roots

variable (options : AnalysisOptions) (catalog : Catalog) (effective : Table FieldSet)

open Resolve

def rootName : Operation → String
  | .query => options.queryType
  | .mutation => options.mutationType

def checkName (name : String) : Resolve Unit :=
  if (catalog.kindOf name).isSome then report (.duplicateType name) else pure ()

def requestedClasses (classes : List TypeName) : List String :=
  mergeNames [] (classes.map (·.resolve catalog.elements))

def checkClass (name : String) : Resolve Unit :=
  if catalog.resolvers.any (·.resolverClass == name) then pure ()
  else report (.unknownResolverClass name)

def offeredBy? (draft : RootDraft) (operation : Operation) (field : String) : Option String :=
  (draft.offers.find? (·.1 = (operation, field))).map Prod.snd

def addField (draft : RootDraft) (operation : Operation) (field : ModelField) : RootDraft :=
  match operation with
  | .query => { draft with query := draft.query ++ [field] }
  | .mutation => { draft with mutation := draft.mutation ++ [field] }

/-- Of two methods with one operation and name the first is kept. -/
def addMethod (draft : RootDraft) (entry : ResolverEntry) : Resolve RootDraft := do
  let operation := entry.method.operation
  let field := entry.method.field
  match offeredBy? draft operation field.name with
  | some first =>
    report (.duplicateRootField operation field.name first entry.resolverClass)
    pure draft
  | none =>
    let draft :=
      { draft with offers := draft.offers ++ [((operation, field.name), entry.resolverClass)] }
    let resolved ← Linking.linkField catalog effective (rootName options operation)
      entry.resolverClass field
    pure (match resolved with
      | some resolved => addField draft operation resolved
      | none => draft)

def build (classes : List TypeName) : Resolve RootDraft := do
  checkName catalog options.queryType
  checkName catalog options.mutationType
  let requested := requestedClasses catalog classes
  requested.forM (checkClass catalog)
  let draft ← (catalog.resolvers.filter (·.resolverClass ∈ requested)).foldlM
    (addMethod options catalog effective) {}
  if draft.query.isEmpty then report .emptyQueryRoot
  pure draft

end Roots

/-- The model that offers the methods of the classes at its roots; without a mutation method there
is no mutation root. -/
def Groundwork.withRoots (groundwork : Groundwork) (options : AnalysisOptions)
    (classes : List TypeName) : Except GenerationError SchemaModel :=
  let (draft, findings) :=
    (Roots.build options groundwork.catalog groundwork.effective classes).run groundwork.findings
  unlessProblems findings.problems
    { toTypeSystem := groundwork.types
      query := ⟨options.queryType, draft.query⟩
      mutation :=
        if draft.mutation.isEmpty then none else some ⟨options.mutationType, draft.mutation⟩ }

def analyze (options : AnalysisOptions) (registry : Registry) (classes : List TypeName) :
    Except GenerationError SchemaModel := do
  let groundwork ← Groundwork.ofRegistry options registry
  groundwork.withRoots options classes

def Registry.readClasses (registry : Registry) (runs : ThunkRuns) : ThunkRuns :=
  TypeName.readAll registry.elementNames (registry.resolvers.map Prod.fst) runs

def readRequested (options : AnalysisOptions) (registry : Registry) (classes : List TypeName)
    (runs : ThunkRuns) : ThunkRuns :=
  match Groundwork.ofRegistry options registry with
  | .ok _ => TypeName.readAll registry.elementNames classes runs
  | .error _ => runs

end Schemata
