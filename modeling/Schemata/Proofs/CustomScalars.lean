import Schemata.Proofs.EmittedDefaults
import Schemata.Proofs.ShapedLeaves
import Schemata.Proofs.TypeNames

namespace Schemata

namespace Output

/-- A document counts the same as a scalar and as the output that it denotes. -/
theorem opened_ofJson (value : Json) : (ofJson value).opened = (scalar value).opened := by
  cases value <;> rfl

end Output

namespace GraphQL

/-- The output is shaped to a plain constant of the document, and to nothing if that is null. -/
def Shaping.Yields (shaping : Shaping) (path : String) (type : Signature) (output : Output)
    (value : Json) : Prop :=
  ∃ result, shaping.shape path type output = .ok result ∧ (result = none ↔ value = .null) ∧
    ∀ found, result = some found → ∃ constant, found = .plain constant ∧ constant.toJson = value

/-- How the variables of a request and the arguments given in it are checked. -/
structure RequestChecks where
  variableFits : Scope → Variable → Bool
  argumentFits : Scope → Request → FieldDef → String × Literal → Bool

def RequestChecks.standard : RequestChecks :=
  ⟨Validity.variableFits, Validity.argumentFits⟩

/-- A scalar that is registered without a check of its own may be the type of a variable, and takes
whatever such a variable holds where an argument is of that type. -/
structure RequestChecks.TakesScalars (checks : RequestChecks) : Prop where
  declaring : ∀ scope name description, scope.get? name = some (.scalar description) →
    ∀ var : Variable, var.type = .named name → var.default = none →
      checks.variableFits scope var = true
  giving : ∀ scope name description, isBuiltinScalar name = false →
    scope.get? name = some (.scalar description) →
    ∀ (field : FieldDef) (argument : String) (declared : InputDef),
      field.arguments.find? (·.name == argument) = some declared → declared.type = .named name →
      ∀ (request : Request) (var : Variable),
        request.vars.find? (·.name == var.name) = some var → var.type = .named name →
          checks.argumentFits scope request field (argument, .var var.name) = true

/-- A variable may be given for an argument, and the handler then receives the document. -/
structure TypeGraph.Delivers (checks : RequestChecks) (graph : TypeGraph) (request : Request)
    (field : ModelField) (argument : String) (var : Variable) (value : Json) : Prop where
  declared : var.default = none → checks.variableFits graph.scope var = true
  accepted :
    checks.argumentFits graph.scope request (.ofField field) (argument, .var var.name) = true
  received : ∀ arguments given, Table.get? arguments argument = some (.var var.name) →
    bindFields request.bindings arguments = .ok given →
    Table.get? (handlerArguments graph.model.inputs field.arguments
      (TypeGraph.providedArguments (.ofField field) given)) argument = some value

namespace Shaping

variable {shaping : Shaping} {path : String}

theorem shape_bare (type : Signature) (output : Output) :
    shaping.shape path type output = shaping.shape path type.bare output := by
  induction type with
  | named | list => rfl
  | nonNull inner ih => exact ih

theorem shapeNamed_congr {type : String} {output other : Output}
    (h : output.opened = other.opened) :
    shaping.shapeNamed type path output = shaping.shapeNamed type path other := by
  rw [shapeNamed, shapeNamed, h]

/-- What a custom scalar makes of a document. It refuses arrays only. -/
def ofDocument (path : String) : Json → Except FieldError (Option Shaped)
  | .null => .ok none
  | .arr _ => .error ⟨s!"Field \"{path}\" must not resolve to a list", none⟩
  | value => .ok (some (.plain (.ofJson value)))

theorem shapeNamed_ofJson {name : String} (hkind : shaping.types.kindOf name = some .scalar)
    {value : Json} (hformed : value.WellFormed) :
    shaping.shapeNamed name path (.ofJson value) = ofDocument path value := by
  have henum : shaping.types.kindOf name ≠ some .enum := by simp [hkind]
  have hplain : ¬shaping.types.IsComposite name := by simp [TypeSystem.IsComposite, hkind]
  rw [shapeNamed]
  cases value with
  | null | arr => rfl
  | obj members =>
    change (shaping.shapeRecord ⟨none, Output.ofMembers members⟩ name path).map some = _
    -- An object is opened into a record, which is read back as the document that it denotes.
    rw [shapeRecord_of_not_composite hplain]
    have hdocument := Output.toJson_ofJson hformed
    rw [Output.ofJson] at hdocument
    rw [Record.toJson, hdocument]
    rfl
  | bool | int | float | str =>
    change Except.ok (some (shaping.shapeScalar _ name)) = _
    rw [shapeScalar_of_not_enum henum]
    rfl

theorem shape_document {name : String} (hkind : shaping.types.kindOf name = some .scalar)
    {value : Json} (hformed : value.WellFormed) {type : Signature} (htype : type.bare = .named name)
    {output : Output} (houtput : output = .scalar value ∨ output = .ofJson value) (path : String) :
    shaping.shape path type output = ofDocument path value := by
  have hopened : output.opened = (Output.ofJson value).opened := by
    rcases houtput with rfl | rfl
    · exact (Output.opened_ofJson value).symm
    · rfl
  rw [shape_bare, htype, shape, shapeNamed_congr hopened, shapeNamed_ofJson hkind hformed]

theorem yields_of_ofDocument {value : Json} (hformed : value.WellFormed)
    (hitems : value.asItems? = none) {type : Signature} {output : Output}
    (h : shaping.shape path type output = ofDocument path value) :
    shaping.Yields path type output value := by
  have hdocument := Value.toJson_ofJson hformed
  cases value with
  | null =>
    refine ⟨none, h, iff_of_true rfl rfl, ?_⟩
    rintro found ⟨⟩
  | arr => cases hitems
  | bool | int | float | str | obj =>
    refine ⟨_, h, iff_of_false (Option.some_ne_none _) (by simp), ?_⟩
    rintro _ ⟨rfl⟩
    exact ⟨_, rfl, hdocument⟩

end Shaping

theorem leafFits_of_scalar {scope : Scope} {name : String} (hbuiltin : isBuiltinScalar name = false)
    {description : Option String} (hget : scope.get? name = some (.scalar description))
    (value : Value) : Validity.leafFits scope (.named name) value = true := by
  simp [Validity.leafFits, hbuiltin, hget]

theorem fits_of_scalar {scope : Scope} {name : String} (hbuiltin : isBuiltinScalar name = false)
    {description : Option String} (hget : scope.get? name = some (.scalar description))
    (value : Value) : Validity.fits scope (.named name) value = true := by
  have hleaf := leafFits_of_scalar hbuiltin hget
  cases value with
  | null => rfl
  | list items => exact hleaf (.list [])
  | object fields =>
    simp only [Validity.fits, Validity.unwrapped, hget]
    exact hleaf (.object [])
  | boolean | int | float | string | enum => exact hleaf _

theorem fillOmitted_of_notMem {inputs : Table InputType} {name : String}
    (h : name ∉ Table.keys inputs) (value : Json) :
    fillOmitted inputs (.named name) value = value := by
  refine fillOmitted_of_not_opens fun hopens => ?_
  cases value with
  | arr items =>
    obtain ⟨item, hitem⟩ := hopens
    cases hitem
  | obj members =>
    obtain ⟨_, input, ⟨rfl⟩, hinput⟩ := hopens
    exact h (Table.mem_keys_of_get? hinput)
  | _ => exact hopens

/-- The value that a variable is bound to, however the bindings are chosen. -/
theorem get?_bound {bound : Variable → Option Value} {vars : List Variable}
    (hn : (vars.map Variable.name).Nodup) {var : Variable} (hvar : var ∈ vars) {value : Value}
    (hbound : bound var = some value) :
    Table.get? (vars.filterMap fun var => (bound var).map fun value => (var.name, value)) var.name =
      some value := by
  induction vars with
  | nil => cases hvar
  | cons first rest ih =>
    rw [List.map_cons, List.nodup_cons] at hn
    rcases List.mem_cons.mp hvar with rfl | hvar
    · rw [List.filterMap_cons, hbound, Option.map_some, Table.get?_cons, if_pos rfl]
    · have hne : first.name ≠ var.name := fun he => hn.1 (he ▸ List.mem_map_of_mem hvar)
      rw [List.filterMap_cons]
      cases bound first with
      | none => exact ih hn.2 hvar
      | some other =>
        dsimp only [Option.map_some]
        rw [Table.get?_cons, if_neg hne]
        exact ih hn.2 hvar

theorem get?_bindFields {bindings : Bindings} {fields : List (String × Literal)}
    {given : List (String × Value)} (h : bindFields bindings fields = .ok given) {name : String}
    {literal : Literal} (hliteral : Table.get? fields name = some literal) :
    ∃ value, literal.bind bindings = .ok value ∧ Table.get? given name = some value := by
  induction fields generalizing given with
  | nil => cases hliteral
  | cons field rest ih =>
    obtain ⟨key, first⟩ := field
    rw [bindFields] at h
    obtain ⟨value, hvalue, h⟩ := Except.bind_eq_ok_iff.mp h
    obtain ⟨others, hothers, h⟩ := Except.bind_eq_ok_iff.mp h
    obtain rfl := Except.ok.inj h
    rw [Table.get?_cons] at hliteral
    by_cases hkey : key = name
    · rw [if_pos hkey] at hliteral
      obtain rfl := Option.some.inj hliteral
      exact ⟨value, hvalue, by rw [Table.get?_cons, if_pos hkey]⟩
    · rw [if_neg hkey] at hliteral
      obtain ⟨found, hfound, hget⟩ := ih hothers hliteral
      exact ⟨found, hfound, by rw [Table.get?_cons, if_neg hkey, hget]⟩

section

variable {request : Request} (hn : (request.vars.map Variable.name).Nodup) {var : Variable}
  (hvar : var ∈ request.vars) {value : Json} (hvalue : var.value = some value)

include hn hvar hvalue

theorem bind_bindings_of_value :
    (Literal.var var.name).bind request.bindings = .ok (.ofJson value) := by
  have hbound : var.bound? = some (.ofJson value) := by rw [Variable.bound?, hvalue]
  rw [Literal.bind, Request.bindings, get?_bound hn hvar hbound]

end

theorem admitsVariable_offeredType {name : String} {var : Variable} (h : var.type = .named name) :
    (TypeRef.named name).admitsVariable (Validity.offeredType var) = true := by
  rw [Validity.offeredType, h]
  cases var.default.isSome <;> simp [TypeRef.ofSignature, TypeRef.isNonNull, TypeRef.admitsVariable]

theorem RequestChecks.standard_takesScalars : RequestChecks.standard.TakesScalars where
  declaring := by
    intro scope name description hget var htype hdefault
    simp [standard, Validity.variableFits, htype, hdefault, TypeRef.ofSignature, TypeRef.namedType,
      Scope.isInputType, hget, Definition.isInput]
  giving := by
    intro scope name description hbuiltin hget field argument declared hdeclared htype request var
      hvar hkind
    have husage : Validity.usageFits request (var.name, some (.named name)) = true := by
      rw [Validity.usageFits, hvar]
      exact admitsVariable_offeredType hkind
    simp only [standard, Validity.argumentFits, hdeclared, htype, Validity.usages, List.all_cons,
      husage, List.all_nil, Bool.and_true, Bool.true_and]
    cases (Literal.var var.name).bind request.supplied with
    | error => rfl
    | ok value => exact fits_of_scalar hbuiltin hget value

theorem TypeGraph.eq_of_ofModel {config : SchemaConfig} {model : SchemaModel} {graph : TypeGraph}
    (h : TypeGraph.ofModel config model = .ok graph) :
    graph = ⟨config, model, .ofTypes model.toTypeSystem, .ofModel model⟩ := by
  simp only [TypeGraph.ofModel] at h
  split at h
  next => exact (Except.ok.inj h).symm
  next => cases h

/-- A variable of the scalar's type that has a value may be given for an argument of that type. -/
theorem delivers_of_scalar {checks : RequestChecks} (hchecks : checks.TakesScalars)
    {graph : TypeGraph} {name : String} (hbuiltin : isBuiltinScalar name = false)
    {description : Option String} (hget : graph.scope.get? name = some (.scalar description))
    (hinput : name ∉ Table.keys graph.model.inputs) {field : ModelField}
    (hnames : (field.arguments.map ModelArgument.name).Nodup) {argument : ModelArgument}
    (hargument : argument ∈ field.arguments) (htype : argument.type = .named name)
    {request : Request} (hn : (request.vars.map Variable.name).Nodup) {var : Variable}
    (hvar : var ∈ request.vars) (hkind : var.type = .named name) {value : Json}
    (hvalue : var.value = some value) (hformed : value.WellFormed) :
    graph.Delivers checks request field argument.name var value where
  declared := hchecks.declaring _ name description hget var hkind
  accepted := by
    -- The argument is registered under its own name and at its declared type.
    have hdeclared : (FieldDef.ofField field).arguments.find? (·.name == argument.name) =
        some (.ofArgument argument) := by
      rw [FieldDef.ofField, List.find?_map]
      exact congrArg (Option.map InputDef.ofArgument) (find?_name_of_mem hnames hargument)
    have hreference : (InputDef.ofArgument argument).type = .named name := by
      rw [InputDef.ofArgument, htype, TypeRef.ofSignature]
    exact hchecks.giving _ name description hbuiltin hget _ _ _ hdeclared hreference request var
      (find?_name_of_mem hn hvar) hkind
  received := by
    intro arguments given harguments hgiven
    obtain ⟨bound, hbound, hfound⟩ := get?_bindFields hgiven harguments
    obtain rfl := Except.ok.inj ((bind_bindings_of_value hn hvar hvalue).symm.trans hbound)
    have hprovided : givenOrDefault (TypeGraph.providedArguments (.ofField field) given) argument =
        some value := by
      rw [givenOrDefault, get?_providedArguments, hfound, Option.some_or]
      exact congrArg some (Value.toJson_ofJson hformed)
    rw [get?_handlerArguments_of_mem hnames hargument hprovided, htype,
      fillOmitted_of_notMem hinput]

end GraphQL

namespace Analysed

variable {options : AnalysisOptions} {classes : List TypeName} {catalog : Catalog}
  {model : SchemaModel}

theorem not_builtin_of_scalar (h : Analysed options classes catalog model) {name : String}
    (hname : name ∈ Table.keys model.scalars) : isBuiltinScalar name = false := by
  have hlisted : name ∈ model.namesOf .scalar := hname
  exact h.named.not_builtin name (h.declared_of_mem_namesOf hlisted).1

theorem notMem_inputs_of_scalar (h : Analysed options classes catalog model) {name : String}
    (hname : name ∈ Table.keys model.scalars) : name ∉ Table.keys model.inputs := by
  intro hinput
  have hlisted : name ∈ model.namesOf .scalar := hname
  have hother : name ∈ model.namesOf .input := hinput
  cases h.kind_of_mem_namesOf hlisted hother

theorem kindOf_of_scalar (h : Analysed options classes catalog model) {name : String}
    (hname : name ∈ Table.keys model.scalars) : model.kindOf name = some .scalar := by
  have hlisted : name ∈ model.namesOf .scalar := hname
  obtain ⟨hdeclared, kind, hkind, hscalar⟩ := h.declared_of_mem_namesOf hlisted
  rw [h.kindOf, h.named.not_builtin name hdeclared, hkind]
  exact hscalar

/-- What is registered after the scalars has none of their names. -/
theorem exists_registrations (h : Analysed options classes catalog model) :
    ∃ rest, GraphQL.registrations model =
        model.scalars.map (fun scalar => (scalar.1, .scalar scalar.2.description)) ++ rest ∧
      ∀ name ∈ Table.keys model.scalars, name ∉ Table.keys rest := by
  obtain ⟨others, hothers⟩ : ∃ others, model.typeNames = Table.keys model.scalars ++ others :=
    ⟨_, by simp only [TypeSystem.typeNames, List.append_assoc]; rfl⟩
  obtain ⟨rest, hrest⟩ : ∃ rest, GraphQL.registrations model =
      model.scalars.map (fun scalar => (scalar.1, .scalar scalar.2.description)) ++ rest :=
    ⟨_, by simp only [GraphQL.registrations, List.append_assoc]; rfl⟩
  have hkeys : Table.keys rest =
      others ++ model.query.name :: (model.mutation.map RootType.name).toList := by
    have hall := model.keys_registrations
    rw [hrest, Table.keys_append, Table.keys_map, SchemaModel.allNames, hothers,
      List.append_assoc] at hall
    exact List.append_cancel_left hall
  have hnodup := h.typeNames_nodup
  rw [hothers, List.nodup_append] at hnodup
  -- The roots come last, and no type is named like one.
  refine ⟨rest, hrest, fun name hname => ?_⟩
  have hlisted : name ∈ model.typeNames := hothers ▸ List.mem_append_left _ hname
  rw [hkeys, List.mem_append, List.mem_cons, Option.mem_toList, Option.map_eq_some_iff]
  rintro (hother | rfl | ⟨root, hroot, rfl⟩)
  · exact hnodup.2.2 name hname name hother rfl
  · rw [h.query_name] at hlisted
    exact h.rootName_notMem .query hlisted
  · rw [h.mutation_name hroot] at hlisted
    exact h.rootName_notMem .mutation hlisted

theorem get?_definitions_of_scalar (h : Analysed options classes catalog model) {name : String}
    {scalar : ScalarType} (hscalar : Table.get? model.scalars name = some scalar) :
    Table.get? (GraphQL.Definitions.ofModel model) name = some (.scalar scalar.description) := by
  obtain ⟨rest, hrest, hlater⟩ := h.exists_registrations
  have hscalars : (Table.keys (model.scalars.map fun scalar =>
      (scalar.1, GraphQL.Definition.scalar scalar.2.description))).Nodup := by
    rw [Table.keys_map]
    exact h.namesOf_nodup .scalar
  rw [GraphQL.Definitions.ofModel, hrest,
    Table.get?_insertAll_append _ _ (hlater name (Table.mem_keys_of_get? hscalar)),
    Table.get?_insertAll hscalars, Table.get?_nil, Option.or_none, Table.get?_map, hscalar,
    Option.map_some]

end Analysed

open GraphQL

/-- Every document passes through a custom scalar. An output of that type takes the document, given
as a scalar or as the output that it denotes, and yields it, nothing for a null; an array alone is
refused as a list. Where requests are checked so that scalars without a check of their own take
everything, an argument of that type takes the document from a variable, and a handler receives it
as it is. -/
theorem analyze_scalar_transparent {options : AnalysisOptions} {registry : Registry}
    {classes : List TypeName} {model : SchemaModel}
    (h : analyze options registry classes = .ok model) {name : String}
    (hname : name ∈ Table.keys model.scalars) {value : Json} (hformed : value.WellFormed) :
    (∀ path type output, type.bare = .named name → output = .scalar value ∨ output = .ofJson value →
      (value.asItems? = none →
        (Shaping.ofTypes model.toTypeSystem).Yields path type output value) ∧
      (value.asItems? ≠ none →
        (Shaping.ofTypes model.toTypeSystem).shape path type output =
          .error ⟨s!"Field \"{path}\" must not resolve to a list", none⟩)) ∧
    ∀ checks : RequestChecks, checks.TakesScalars →
      ∀ config graph, TypeGraph.ofModel config model = .ok graph →
      ∀ field, model.Resolves field → ∀ argument ∈ field.arguments, argument.type = .named name →
        ∀ request : Request, (request.vars.map Variable.name).Nodup →
          ∀ var ∈ request.vars, var.type = .named name → var.value = some value →
            graph.Delivers checks request field argument.name var value := by
  obtain ⟨catalog, -, hanalysed⟩ := analysed_of_analyze h
  constructor
  · intro path type output htype houtput
    have hkind : (Shaping.ofTypes model.toTypeSystem).types.kindOf name = some .scalar :=
      hanalysed.kindOf_of_scalar hname
    have hshape := Shaping.shape_document hkind hformed htype houtput
    refine ⟨fun hitems => Shaping.yields_of_ofDocument hformed hitems (hshape path),
      fun hitems => ?_⟩
    cases value with
    | arr => exact hshape path
    | _ => exact absurd rfl hitems
  · intro checks hchecks config graph hgraph field hfield argument hargument htype request hvars
      var hvar hkind hvalue
    obtain rfl := TypeGraph.eq_of_ofModel hgraph
    obtain ⟨scalar, hscalar⟩ := Table.exists_get?_of_mem_keys hname
    have hget : (TypeGraph.scope ⟨config, model, .ofTypes model.toTypeSystem, .ofModel model⟩).get?
        name = some (.scalar scalar.description) := by
      rw [Scope.get?]
      exact congrArg (Option.or · _) (hanalysed.get?_definitions_of_scalar hscalar)
    exact delivers_of_scalar hchecks (hanalysed.not_builtin_of_scalar hname) hget
      (hanalysed.notMem_inputs_of_scalar hname) (hanalysed.argumentNames_of_resolves hfield)
      hargument htype hvars hvar hkind hvalue hformed

def Registry.depot : Registry :=
  let document : TypeExpr := .named (.literal "Any")
  { scalars := [⟨"Any", none⟩]
    resolvers := [(.literal "Store", ⟨.query, ((FieldDeclaration.new "keep" document).addSource
      (.single (.new "item" document))).resolveWith fun input =>
        .ok (.ofJson ((Table.get? input.arguments "item").getD .null))⟩)] }

theorem analyze_scalar_transparent_depot :
    let crate : Json := .obj [("items", .arr [.int 1, .null])]
    let var : Variable := ⟨"crate", .named "Any", some crate, none⟩
    ∃ model graph field, analyze {} Registry.depot [.literal "Store"] = .ok model ∧
      "Any" ∈ Table.keys model.scalars ∧ crate.WellFormed ∧
      TypeGraph.ofModel {} model = .ok graph ∧ model.Resolves field ∧
      (Shaping.ofTypes model.toTypeSystem).Yields "Query.keep" (.named "Any") (.scalar crate) crate ∧
      graph.Delivers .standard ⟨.query, [var], []⟩ field "item" var crate := by
  intro crate var
  have hformed : crate.WellFormed :=
    .obj (List.pairwise_singleton _ _) (List.forall_mem_singleton.mpr
      (.arr (List.forall_mem_cons.mpr ⟨.int (by decide), List.forall_mem_singleton.mpr .null⟩)))
  have hrun : (analyze {} Registry.depot [.literal "Store"]).toOption.any (fun model =>
      (TypeGraph.ofModel {} model).toOption.any (fun _ => true) &&
        decide ("Any" ∈ Table.keys model.scalars) &&
          model.query.fields.any fun field => field.arguments.any fun argument =>
            decide (argument.name = "item" ∧ argument.type = .named "Any")) = true := by
    decide +kernel
  obtain ⟨model, hmodel, hfacts⟩ := exists_ok_of_any hrun
  rw [Bool.and_eq_true, Bool.and_eq_true, decide_eq_true_eq] at hfacts
  obtain ⟨⟨hserved, hscalar⟩, hfields⟩ := hfacts
  obtain ⟨graph, hgraph, -⟩ := exists_ok_of_any hserved
  obtain ⟨field, hfield, hfields⟩ := List.any_eq_true.mp hfields
  obtain ⟨argument, hargument, hfields⟩ := List.any_eq_true.mp hfields
  obtain ⟨hname, htype⟩ := of_decide_eq_true hfields
  have hresolves : model.Resolves field := Or.inr (Or.inl hfield)
  obtain ⟨houtput, hgiven⟩ := analyze_scalar_transparent hmodel hscalar hformed
  have hdelivers := hgiven .standard RequestChecks.standard_takesScalars {} graph hgraph field
    hresolves argument hargument htype ⟨.query, [var], []⟩ (List.nodup_singleton _) var
      List.mem_cons_self rfl rfl
  rw [hname] at hdelivers
  exact ⟨model, graph, field, hmodel, hscalar, hformed, hgraph, hresolves,
    (houtput "Query.keep" (.named "Any") (.scalar crate) rfl (Or.inl rfl)).1 rfl, hdelivers⟩

/-- An array is taken for an argument but not for an output. -/
theorem execute_depot :
    let crate : Json := .arr [.int 1, .int 2]
    ∃ graph, TypeGraph.ofRegistry {} Registry.depot [.literal "Store"] = .ok graph ∧
      "Any" ∈ Table.keys graph.model.scalars ∧ crate.WellFormed ∧
      (∀ output, output = .scalar crate ∨ output = .ofJson crate →
        graph.shaping.shape "Query.keep" (.named "Any") output =
          .error ⟨"Field \"Query.keep\" must not resolve to a list", none⟩) ∧
      graph.execute ⟨.query, [],
          [.leaf ⟨"keep", "keep", [("item", .list [.int 1, .int 2])]⟩]⟩ =
        .answered .null [⟨"Field \"Query.keep\" must not resolve to a list", none⟩] := by
  intro crate
  have hformed : crate.WellFormed :=
    .arr (List.forall_mem_cons.mpr
      ⟨.int (by decide), List.forall_mem_singleton.mpr (.int (by decide))⟩)
  have hrun : (TypeGraph.ofRegistry {} Registry.depot [.literal "Store"]).toOption.any (fun graph =>
      decide ("Any" ∈ Table.keys graph.model.scalars ∧
        graph.execute ⟨.query, [], [.leaf ⟨"keep", "keep", [("item", .list [.int 1, .int 2])]⟩]⟩ =
          .answered .null [⟨"Field \"Query.keep\" must not resolve to a list", none⟩])) = true := by
    decide +kernel
  obtain ⟨graph, hgraph, hfacts⟩ := exists_ok_of_any hrun
  obtain ⟨hscalar, hanswer⟩ := of_decide_eq_true hfacts
  refine ⟨graph, hgraph, hscalar, hformed, ?_, hanswer⟩
  rintro output (rfl | rfl) <;> rfl

end Schemata
