import Schemata.Analysis
import Schemata.Proofs.PlainLinking

namespace Schemata

namespace PlainRoots

variable (options : AnalysisOptions) (catalog : Catalog) (effective : Table FieldSet)

open Roots (rootName requestedClasses offeredBy? addField)

def nameProblems (name : String) : List Problem :=
  if (catalog.kindOf name).isSome then [.duplicateType name] else []

def classProblems (name : String) : List Problem :=
  if catalog.resolvers.any (·.resolverClass == name) then [] else [.unknownResolverClass name]

def rootField (entry : ResolverEntry) : Option ModelField :=
  PlainLinking.linkField catalog effective (rootName options entry.method.operation)
    entry.resolverClass entry.method.field

def addMethod (draft : RootDraft) (entry : ResolverEntry) : RootDraft :=
  match offeredBy? draft entry.method.operation entry.method.field.name with
  | some _ => draft
  | none =>
    let draft := { draft with offers := draft.offers ++
      [((entry.method.operation, entry.method.field.name), entry.resolverClass)] }
    match rootField options catalog effective entry with
    | some field => addField draft entry.method.operation field
    | none => draft

def methodProblems (draft : RootDraft) (entry : ResolverEntry) : List Problem :=
  match offeredBy? draft entry.method.operation entry.method.field.name with
  | some first =>
    [.duplicateRootField entry.method.operation entry.method.field.name first entry.resolverClass]
  | none =>
    PlainLinking.fieldProblems catalog effective (rootName options entry.method.operation)
      entry.method.field

def requestedMethods (classes : List TypeName) : List ResolverEntry :=
  catalog.resolvers.filter fun entry =>
    decide (entry.resolverClass ∈ requestedClasses catalog classes)

def draft (classes : List TypeName) : RootDraft :=
  (requestedMethods catalog classes).foldl (addMethod options catalog effective) {}

def emptyProblems (draft : RootDraft) : List Problem :=
  if draft.query.isEmpty then [.emptyQueryRoot] else []

def problems (classes : List TypeName) : List Problem :=
  nameProblems catalog options.queryType ++ (nameProblems catalog options.mutationType ++
    ((requestedClasses catalog classes).flatMap (classProblems catalog) ++
      (Linking.foldProblems (addMethod options catalog effective)
          (methodProblems options catalog effective) {} (requestedMethods catalog classes) ++
        emptyProblems (draft options catalog effective classes))))

end PlainRoots

namespace Roots

variable {options : AnalysisOptions} {catalog : Catalog} {effective : Table FieldSet}

open Linking (Outcome linkField_outcome)

theorem checkName_outcome (name : String) :
    Outcome catalog effective (checkName catalog name) () (PlainRoots.nameProblems catalog name) := by
  rw [checkName, PlainRoots.nameProblems]
  split
  next => exact .report _
  next => exact .pure ()

theorem checkClass_outcome (name : String) :
    Outcome catalog effective (checkClass catalog name) ()
      (PlainRoots.classProblems catalog name) := by
  rw [checkClass, PlainRoots.classProblems]
  split
  next => exact .pure ()
  next => exact .report _

theorem addMethod_outcome (draft : RootDraft) (entry : ResolverEntry) :
    Outcome catalog effective (addMethod options catalog effective draft entry)
      (PlainRoots.addMethod options catalog effective draft entry)
      (PlainRoots.methodProblems options catalog effective draft entry) := by
  simp only [addMethod, PlainRoots.addMethod, PlainRoots.methodProblems]
  cases offeredBy? draft entry.method.operation entry.method.field.name with
  | some first => exact (Outcome.report _).map fun _ => draft
  | none => exact (linkField_outcome _ _ _).map _

theorem finish_outcome (draft : RootDraft) :
    Outcome catalog effective
      (do
        if draft.query.isEmpty then Resolve.report .emptyQueryRoot
        pure draft)
      draft (PlainRoots.emptyProblems draft) := by
  rw [PlainRoots.emptyProblems]
  cases draft.query.isEmpty with
  | true => exact (Outcome.report _).map fun _ => draft
  | false => exact .pure draft

theorem build_outcome (options : AnalysisOptions) (classes : List TypeName) :
    Outcome catalog effective (build options catalog effective classes)
      (PlainRoots.draft options catalog effective classes)
      (PlainRoots.problems options catalog effective classes) :=
  (checkName_outcome _).bind ((checkName_outcome _).bind
    ((Outcome.forM fun name _ => checkClass_outcome name).bind
      ((Outcome.foldlM_state (fun draft entry _ => addMethod_outcome draft entry) _).bind
        (finish_outcome _))))

end Roots

end Schemata
