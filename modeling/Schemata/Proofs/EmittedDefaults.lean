import Schemata.GraphQL.TypeGraph
import Schemata.Proofs.Closure
import Schemata.Proofs.ReceivedArguments

namespace Schemata

/-- The fields with which requests are answered: those of the objects and of the roots. -/
def SchemaModel.Resolves (model : SchemaModel) (field : ModelField) : Prop :=
  (∃ object ∈ model.objects, field ∈ object.2.fields) ∨ field ∈ model.query.fields ∨
    ∃ root, model.mutation = some root ∧ field ∈ root.fields

namespace Analysed

variable {options : AnalysisOptions} {classes : List TypeName} {catalog : Catalog}
  {model : SchemaModel}

/-- Each of these fields is linked from a declaration. -/
theorem exists_linkField (h : Analysed options classes catalog model) {field : ModelField}
    (hfield : model.Resolves field) :
    ∃ owner declaredBy declaration, PlainLinking.linkField catalog (catalog.finalFields options)
      owner declaredBy declaration = some field := by
  have hroots : ∀ root ∈ (PlainRoots.draft options catalog (catalog.finalFields options)
      classes).query ++ (PlainRoots.draft options catalog (catalog.finalFields options)
      classes).mutation, ∃ owner declaredBy declaration, PlainLinking.linkField catalog
        (catalog.finalFields options) owner declaredBy declaration = some root :=
    PlainRoots.draft_fields (fun _ _ hlinked => ⟨_, _, _, hlinked⟩) classes
  rcases hfield with ⟨⟨name, object⟩, hobject, hfield⟩ | hquery | ⟨root, hroot, hfield⟩
  · obtain ⟨_, _, _, _, hfields, _⟩ := h.exists_object hobject
    dsimp only at hfield
    rw [hfields] at hfield
    obtain ⟨seen, -, hlinked⟩ := List.mem_filterMap.mp hfield
    exact ⟨_, _, _, hlinked⟩
  · rw [h.query] at hquery
    exact hroots field (List.mem_append_left _ hquery)
  · rw [h.mutation] at hroot
    split at hroot
    next => cases hroot
    next =>
      obtain rfl := Option.some.inj hroot
      exact hroots field (List.mem_append_right _ hfield)

theorem argumentNames_of_resolves (h : Analysed options classes catalog model) {field : ModelField}
    (hfield : model.Resolves field) : (field.arguments.map ModelArgument.name).Nodup := by
  obtain ⟨owner, declaredBy, declaration, hlinked⟩ := h.exists_linkField hfield
  exact PlainLinking.argumentNames_nodup hlinked

end Analysed

namespace GraphQL

/-- The constant that is emitted as the default of a name. -/
def emittedNamed? (arguments : List InputDef) (name : String) : Option Value :=
  arguments.findSome? fun argument => if argument.name = name then argument.default else none

theorem emittedNamed?_cons (argument : InputDef) (rest : List InputDef) (name : String) :
    emittedNamed? (argument :: rest) name =
      (if argument.name = name then argument.default else none).or (emittedNamed? rest name) := by
  rw [emittedNamed?, List.findSome?_cons]
  split
  next hfound => rw [hfound, Option.some_or]
  next hnone => rw [hnone, Option.none_or, emittedNamed?]

theorem emittedNamed?_of_mem {declared : List ModelArgument}
    (hn : (declared.map (·.name)).Nodup) {argument : ModelArgument}
    (hargument : argument ∈ declared) :
    emittedNamed? (declared.map .ofArgument) argument.name = argument.default.map .ofJson := by
  induction declared with
  | nil => cases hargument
  | cons first rest ih =>
    rw [List.map_cons, List.nodup_cons] at hn
    rw [List.map_cons, emittedNamed?_cons]
    rcases List.mem_cons.mp hargument with rfl | hargument
    · have hrest : emittedNamed? (rest.map .ofArgument) argument.name = none := by
        rw [emittedNamed?, List.findSome?_eq_none_iff, List.forall_mem_map]
        intro other hother
        have hne : other.name ≠ argument.name := fun he => hn.1 (he ▸ List.mem_map_of_mem hother)
        exact if_neg hne
      rw [hrest, Option.or_none]
      exact if_pos rfl
    · have hne : first.name ≠ argument.name := fun he => hn.1 (he ▸ List.mem_map_of_mem hargument)
      have hfirst : (InputDef.ofArgument first).name ≠ argument.name := hne
      rw [if_neg hfirst, Option.none_or]
      exact ih hn.2 hargument

/-- What is given counts before what is emitted. -/
theorem get?_providedArguments (field : FieldDef) (given : Table Value) (name : String) :
    Table.get? (TypeGraph.providedArguments field given) name =
      (Table.get? given name).or (emittedNamed? field.arguments name) := by
  rw [TypeGraph.providedArguments]
  induction field.arguments generalizing given with
  | nil => exact (Option.or_none).symm
  | cons argument rest ih =>
    rw [List.foldl_cons, ih, emittedNamed?_cons, ← Option.or_assoc]
    congr 1
    cases argument.default with
    | none => rw [ite_self, Option.or_none]
    | some emitted =>
      dsimp only
      split
      next hgiven =>
        obtain ⟨value, hvalue⟩ := Option.isSome_iff_exists.mp hgiven
        by_cases hname : argument.name = name
        · rw [← hname, hvalue, Option.some_or]
        · rw [if_neg hname, Option.or_none]
      next homitted =>
        rw [Table.get?_insert]
        by_cases hname : argument.name = name
        · have hnone := Option.not_isSome_iff_eq_none.mp homitted
          rw [if_pos hname, if_pos hname, ← hname, hnone, Option.none_or]
        · rw [if_neg hname, if_neg hname, Option.or_none]

section

variable {declared : List ModelArgument} (hn : (declared.map (·.name)).Nodup)
  {argument : ModelArgument} (hargument : argument ∈ declared) {default : Json}
  (hdefault : argument.default = some default) {given : Table Value}
  (homitted : argument.name ∉ Table.keys given)

include hdefault homitted

theorem givenOrDefault_of_omitted : givenOrDefault given argument = some default := by
  rw [givenOrDefault, (Table.get?_eq_none_iff _ _).mpr homitted, hdefault]

include hn hargument

/-- The emitted default, once it is provided, is read back as the declared one. -/
theorem givenOrDefault_of_emitted (hformed : default.WellFormed) {field : FieldDef}
    (hfield : field.arguments = declared.map .ofArgument) :
    givenOrDefault (TypeGraph.providedArguments field given) argument = some default := by
  rw [givenOrDefault, get?_providedArguments, (Table.get?_eq_none_iff _ _).mpr homitted,
    Option.none_or, hfield, emittedNamed?_of_mem hn hargument, hdefault, Option.map_some]
  dsimp only
  rw [Value.toJson_ofJson hformed]

end

end GraphQL

open GraphQL in
/-- The default of an argument is emitted as a constant that denotes it, whatever document it is. For
an argument that a request omits a handler receives the default with its own omissions filled in,
both when the emitted defaults are provided and when they are not. -/
theorem analyze_default_received {options : AnalysisOptions} {registry : Registry}
    {classes : List TypeName} {model : SchemaModel}
    (h : analyze options registry classes = .ok model) {field : ModelField}
    (hfield : model.Resolves field) {argument : ModelArgument}
    (hargument : argument ∈ field.arguments) {default : Json}
    (hdefault : argument.default = some default) (hformed : default.WellFormed)
    {given : Table Value} (homitted : argument.name ∉ Table.keys given) :
    (∃ emitted, (InputDef.ofArgument argument).default = some emitted ∧
      emitted.toJson = default) ∧
    Table.get? (handlerArguments model.inputs field.arguments
        (TypeGraph.providedArguments (.ofField field) given)) argument.name =
      some (fillOmitted model.inputs argument.type default) ∧
    Table.get? (handlerArguments model.inputs field.arguments given) argument.name =
      some (fillOmitted model.inputs argument.type default) := by
  obtain ⟨catalog, -, hanalysed⟩ := analysed_of_analyze h
  have hnames := hanalysed.argumentNames_of_resolves hfield
  refine ⟨⟨.ofJson default, ?_, Value.toJson_ofJson hformed⟩, ?_, ?_⟩
  · rw [InputDef.ofArgument, hdefault, Option.map_some]
  · exact get?_handlerArguments_of_mem hnames hargument
      (givenOrDefault_of_emitted hnames hargument hdefault homitted hformed rfl)
  · exact get?_handlerArguments_of_mem hnames hargument
      (givenOrDefault_of_omitted hdefault homitted)

def Registry.archive : Registry :=
  let number : TypeExpr := .named (.literal "Int")
  let window : FieldDeclaration := { FieldDeclaration.new "window" (.named (.literal "Window")) with
    default := some (.obj [("after", .int 18446744073709551615)]) }
  { types :=
      [{ TypeDeclaration.new .input "Window" with
          fields := [{ FieldDeclaration.new "size" number with default := some (.int 10) }] }]
    resolvers := [(.literal "Store", ⟨.query, (FieldDeclaration.new "count" number).addSource
      (.single window)⟩)] }

open GraphQL in
theorem analyze_default_received_archive :
    ∃ model field argument, analyze {} Registry.archive [.literal "Store"] = .ok model ∧
      model.Resolves field ∧ argument ∈ field.arguments ∧
      (InputDef.ofArgument argument).default =
        some (.object [("after", .int 18446744073709551615)]) ∧
      Table.get? (handlerArguments model.inputs field.arguments
          (TypeGraph.providedArguments (.ofField field) [])) "window" =
        some (.obj [("after", .int 18446744073709551615), ("size", .int 10)]) ∧
      Table.get? (handlerArguments model.inputs field.arguments []) "window" =
        some (.obj [("after", .int 18446744073709551615), ("size", .int 10)]) := by
  let default : Json := .obj [("after", .int 18446744073709551615)]
  have hformed : default.WellFormed :=
    .obj (List.pairwise_singleton _ _) (List.forall_mem_singleton.mpr (.int (by decide)))
  have hrun : (analyze {} Registry.archive [.literal "Store"]).toOption.any (fun model =>
      model.query.fields.any fun field => field.arguments.any fun argument =>
        decide (argument.name = "window" ∧ argument.default = some default ∧
          fillOmitted model.inputs argument.type default =
            .obj [("after", .int 18446744073709551615), ("size", .int 10)])) = true := by
    decide +kernel
  obtain ⟨model, hmodel, hrun⟩ := exists_ok_of_any hrun
  obtain ⟨field, hfield, hrun⟩ := List.any_eq_true.mp hrun
  obtain ⟨argument, hargument, hrun⟩ := List.any_eq_true.mp hrun
  obtain ⟨hname, hdefault, hfilled⟩ := of_decide_eq_true hrun
  have hresolves : model.Resolves field := Or.inr (Or.inl hfield)
  have homitted : argument.name ∉ Table.keys ([] : Table Value) := List.not_mem_nil
  obtain ⟨-, hemitted, hdeclared⟩ :=
    analyze_default_received hmodel hresolves hargument hdefault hformed homitted
  rw [hname, hfilled] at hemitted hdeclared
  refine ⟨model, field, argument, hmodel, hresolves, hargument, ?_, hemitted, hdeclared⟩
  rw [InputDef.ofArgument, hdefault]
  rfl

end Schemata
