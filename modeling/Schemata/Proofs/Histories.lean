import Mathlib.Data.List.DropRight
import Schemata.GraphQL.TypeGraph
import Schemata.Proofs.Analysis

namespace Schemata

namespace Registration

inductive Kind
  | type
  | field
  | extends
  | implements
  | resolver
  | scalar
  | enum
  | union
  | clear
  deriving DecidableEq

def kind : Registration → Kind
  | .type _ => .type
  | .field _ _ => .field
  | .extends _ _ => .extends
  | .implements _ _ => .implements
  | .resolver _ _ => .resolver
  | .scalar _ => .scalar
  | .enum _ => .enum
  | .union _ => .union
  | .clear => .clear

def edges : Registration → List (TypeName × TypeName)
  | .implements object interfaces => interfaces.map fun interface => (object, interface)
  | _ => []

/-- The steps after the last clear. -/
def sinceClear (steps : List Registration) : List Registration :=
  steps.rtakeWhile fun step => decide (step.kind ≠ .clear)

/-- Two series with the same steps of each kind. Of the implements steps only the edges count. -/
structure SameByKind (left right : List Registration) : Prop where
  steps : ∀ kind, kind ≠ .implements →
    left.filter (fun step => decide (step.kind = kind)) =
      right.filter fun step => decide (step.kind = kind)
  edges : left.flatMap edges = right.flatMap edges

theorem sinceClear_concat (steps : List Registration) (step : Registration) :
    sinceClear (steps ++ [step]) =
      if step.kind = .clear then [] else sinceClear steps ++ [step] := by
  rw [sinceClear, List.rtakeWhile_concat]
  by_cases hclear : step.kind = .clear <;> simp [hclear, sinceClear]

theorem kind_of_mem_sinceClear {steps : List Registration} {step : Registration}
    (h : step ∈ sinceClear steps) : step.kind ≠ .clear := by
  rw [sinceClear] at h
  simpa using List.mem_rtakeWhile_imp h

end Registration

namespace Registry

open Registration

theorem flatMap_filter_of_nil {α β : Type} {items : α → List β} {p : α → Bool} {list : List α}
    (h : ∀ item, p item = false → items item = []) :
    (list.filter p).flatMap items = list.flatMap items := by
  induction list with
  | nil => rfl
  | cons item rest ih =>
    cases hp : p item with
    | true => rw [List.filter_cons_of_pos hp, List.flatMap_cons, List.flatMap_cons, ih]
    | false =>
      rw [List.filter_cons_of_neg (by simp [hp]), List.flatMap_cons, h item hp, List.nil_append, ih]

/-- A part of a registry, to which the steps of one kind append what they register. -/
structure Accumulates {α : Type} (kind : Kind) (store : Registry → List α) : Prop where
  cleared : ∀ generation, store { generation := generation } = []
  appended : ∀ registry step, step.kind ≠ .clear →
    store (registry.register step) = store registry ++ store (({} : Registry).register step)
  only : ∀ step, step.kind ≠ kind → store (({} : Registry).register step) = []

theorem accumulates_all :
    Accumulates .type types ∧ Accumulates .field fields ∧
      Accumulates .implements implementations ∧ Accumulates .extends extensions ∧
      Accumulates .resolver resolvers ∧ Accumulates .scalar scalars ∧ Accumulates .enum enums ∧
      Accumulates .union unions := by
  refine ⟨?_, ?_, ?_, ?_, ?_, ?_, ?_, ?_⟩ <;>
    refine ⟨fun _ => rfl, fun registry step hstep => ?_, fun step hstep => ?_⟩ <;>
    cases step <;> simp_all [register, Registration.kind]

theorem registerAll_concat (steps : List Registration) (step : Registration) :
    ({} : Registry).registerAll (steps ++ [step]) =
      (({} : Registry).registerAll steps).register step :=
  List.foldl_concat ..

namespace Accumulates

variable {α : Type} {kind : Kind} {store : Registry → List α}

/-- It holds what has been registered since the last clear. -/
theorem registerAll (h : Accumulates kind store) (steps : List Registration) :
    store (({} : Registry).registerAll steps) =
      (sinceClear steps).flatMap fun step => store (({} : Registry).register step) := by
  induction steps using List.reverseRecOn with
  | nil => exact h.cleared 0
  | append_singleton steps step ih =>
    rw [registerAll_concat, sinceClear_concat]
    by_cases hclear : step.kind = .clear
    · rw [if_pos hclear]
      cases step with
      | clear => exact h.cleared _
      | _ => cases hclear
    · rw [if_neg hclear, h.appended _ _ hclear, ih, List.flatMap_append, List.flatMap_singleton]

/-- It depends on the steps of its kind. -/
theorem eq_of_sameByKind (h : Accumulates kind store) (hkind : kind ≠ .implements)
    {left right : List Registration} (hsame : SameByKind (sinceClear left) (sinceClear right)) :
    store (({} : Registry).registerAll left) = store (({} : Registry).registerAll right) := by
  have hnil (step : Registration) (hstep : decide (step.kind = kind) = false) :
      store (({} : Registry).register step) = [] := h.only step (of_decide_eq_false hstep)
  rw [h.registerAll, h.registerAll, ← flatMap_filter_of_nil hnil, hsame.steps kind hkind,
    flatMap_filter_of_nil hnil]

end Accumulates

/-- The declarations depend on what has been registered of each kind since the last clear. -/
theorem registerAll_eq {left right : List Registration}
    (h : SameByKind (sinceClear left) (sinceClear right)) :
    ({} : Registry).registerAll left =
      { ({} : Registry).registerAll right with
        generation := (({} : Registry).registerAll left).generation } := by
  obtain ⟨htypes, hfields, himplementations, hextensions, hresolvers, hscalars, henums, hunions⟩ :=
    accumulates_all
  have hedges : (fun step => (({} : Registry).register step).implementations) = edges := by
    funext step
    cases step <;> rfl
  have himplemented : (({} : Registry).registerAll left).implementations =
      (({} : Registry).registerAll right).implementations := by
    rw [himplementations.registerAll, himplementations.registerAll, hedges, h.edges]
  dsimp only
  rw [← htypes.eq_of_sameByKind (by decide) h, ← hfields.eq_of_sameByKind (by decide) h,
    ← himplemented, ← hextensions.eq_of_sameByKind (by decide) h,
    ← hresolvers.eq_of_sameByKind (by decide) h, ← hscalars.eq_of_sameByKind (by decide) h,
    ← henums.eq_of_sameByKind (by decide) h, ← hunions.eq_of_sameByKind (by decide) h]

/-- Every clear counts a generation. -/
theorem generation_registerAll (steps : List Registration) :
    (({} : Registry).registerAll steps).generation =
      .ofNat (steps.countP fun step => decide (step.kind = .clear)) := by
  induction steps using List.reverseRecOn with
  | nil => rfl
  | append_singleton steps step ih =>
    rw [registerAll_concat, List.countP_append, UInt64.ofNat_add, ← ih]
    cases step <;> simp [register, kind]

theorem isEmpty_iff {registry : Registry} :
    registry.isEmpty = true ↔ registry.types = [] ∧ registry.fields = [] ∧
      registry.implementations = [] ∧ registry.extensions = [] ∧ registry.resolvers = [] ∧
      registry.scalars = [] ∧ registry.enums = [] ∧ registry.unions = [] := by
  simp only [isEmpty, Bool.and_eq_true, List.isEmpty_iff, and_assoc]

theorem isEmpty_register_iff {step : Registration} (h : step.kind ≠ .clear) :
    (({} : Registry).register step).isEmpty = true ↔ ∃ object, step = .implements object [] := by
  cases step <;> simp_all [isEmpty_iff, register, kind]

theorem isEmpty_registerAll_iff (steps : List Registration) :
    (({} : Registry).registerAll steps).isEmpty = true ↔
      ∀ step ∈ sinceClear steps, ∃ object, step = .implements object [] := by
  obtain ⟨htypes, hfields, himplementations, hextensions, hresolvers, hscalars, henums, hunions⟩ :=
    accumulates_all
  have hsteps : (({} : Registry).registerAll steps).isEmpty = true ↔
      ∀ step ∈ sinceClear steps, (({} : Registry).register step).isEmpty = true := by
    simp only [isEmpty_iff, htypes.registerAll, hfields.registerAll, himplementations.registerAll,
      hextensions.registerAll, hresolvers.registerAll, hscalars.registerAll, henums.registerAll,
      hunions.registerAll, List.flatMap_eq_nil_iff, forall_and]
  rw [hsteps]
  exact forall₂_congr fun step hstep => isEmpty_register_iff (kind_of_mem_sinceClear hstep)

/-- Two series of registrations that agree on each kind since their last clears leave the same
declarations, and so the same catalog, models and graphs. A registry counts its clears, and it is
empty when nothing has been registered since the last one. -/
theorem registerAll_of_sameByKind {left right : List Registration}
    (h : SameByKind (sinceClear left) (sinceClear right)) :
    let these := ({} : Registry).registerAll left
    let those := ({} : Registry).registerAll right
    these = { those with generation := these.generation } ∧
    Catalog.ofRegistry these = Catalog.ofRegistry those ∧
    (∀ options classes, analyze options these classes = analyze options those classes) ∧
    (∀ config classes, GraphQL.TypeGraph.ofRegistry config these classes =
      GraphQL.TypeGraph.ofRegistry config those classes) ∧
    ∀ steps, (({} : Registry).registerAll steps).generation =
        .ofNat (steps.countP fun step => decide (step.kind = .clear)) ∧
      ((({} : Registry).registerAll steps).isEmpty = true ↔
        ∀ step ∈ sinceClear steps, ∃ object, step = .implements object []) := by
  intro these those
  have heq : these = { those with generation := these.generation } := registerAll_eq h
  refine ⟨heq, ?_, ?_, ?_, ?_⟩
  -- No stage reads the generation.
  · rw [heq]
    rfl
  · intro options classes
    rw [heq]
    rfl
  · intro config classes
    rw [heq]
    rfl
  · intro steps
    exact ⟨generation_registerAll steps, isEmpty_registerAll_iff steps⟩

def dogFirst : List Registration :=
  [.scalar ⟨"Date", none⟩, .clear,
    .type (.new .object "Dog"),
    .implements (.literal "Dog") [.literal "Animal", .literal "Node"],
    .type (.new .interface "Animal"),
    .field (.literal "Dog") (.new "id" (.named (.literal "ID"))),
    .type { TypeDeclaration.new .interface "Node" with
      fields := [.new "id" (.named (.literal "ID"))] },
    .resolver (.literal "Store") ⟨.query, .new "dog" (.named (.literal "Dog"))⟩]

def edgesFirst : List Registration :=
  [.resolver (.literal "Store") ⟨.query, .new "dog" (.named (.literal "Dog"))⟩,
    .implements (.literal "Dog") [.literal "Animal"],
    .implements (.literal "Cat") [],
    .field (.literal "Dog") (.new "id" (.named (.literal "ID"))),
    .implements (.literal "Dog") [.literal "Node"],
    .type (.new .object "Dog"),
    .type (.new .interface "Animal"),
    .type { TypeDeclaration.new .interface "Node" with
      fields := [.new "id" (.named (.literal "ID"))] }]

theorem registerAll_of_sameByKind_dog :
    SameByKind (sinceClear dogFirst) (sinceClear edgesFirst) ∧
    (({} : Registry).registerAll dogFirst).generation = 1 ∧
    (({} : Registry).registerAll edgesFirst).generation = 0 ∧
    ∃ model, analyze {} (({} : Registry).registerAll dogFirst) [.literal "Store"] = .ok model ∧
      analyze {} (({} : Registry).registerAll edgesFirst) [.literal "Store"] = .ok model := by
  have hsame : SameByKind (sinceClear dogFirst) (sinceClear edgesFirst) := by
    refine ⟨fun kind hkind => ?_, rfl⟩
    cases kind <;> first | rfl | exact absurd rfl hkind
  have hrun : (analyze {} (({} : Registry).registerAll dogFirst)
      [.literal "Store"]).toOption.any (fun _ => true) = true := by
    decide +kernel
  obtain ⟨model, hmodel, -⟩ := exists_ok_of_any hrun
  obtain ⟨-, -, hanalyze, -, hsteps⟩ := registerAll_of_sameByKind hsame
  exact ⟨hsame, (hsteps dogFirst).1, (hsteps edgesFirst).1, model, hmodel,
    (hanalyze _ _).symm.trans hmodel⟩

end Registry

end Schemata
