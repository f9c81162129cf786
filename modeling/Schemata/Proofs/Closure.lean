import Schemata.Proofs.AnalysedModel

namespace Schemata

def NamedKind.listed? : NamedKind → Option ModelKind
  | .declared .object => some .object
  | .declared .interface => some .interface
  | .declared .input => some .input
  | .declared .argumentSet => none
  | .scalar => some .scalar
  | .enum => some .enum
  | .union => some .union

def ModelKind.outputs : List ModelKind := [.object, .interface, .union, .scalar, .enum]

def ModelKind.inputs : List ModelKind := [.input, .scalar, .enum]

def TypeSystem.Allows (types : TypeSystem) (kinds : List ModelKind) (name : String) : Prop :=
  isBuiltinScalar name = true ∨ ∃ kind ∈ kinds, types.kindOf name = some kind

def ModelArgument.Placed (types : TypeSystem) (argument : ModelArgument) : Prop :=
  types.Allows ModelKind.inputs argument.type.namedType

structure ModelField.Placed (types : TypeSystem) (field : ModelField) : Prop where
  type : types.Allows ModelKind.outputs field.type.namedType
  arguments : ∀ argument ∈ field.arguments, argument.Placed types

/-- Every name in a model is declared in it, as something that may stand there. -/
structure SchemaModel.Closed (model : SchemaModel) : Prop where
  objectFields : ∀ entry ∈ model.objects, ∀ field ∈ entry.2.fields, field.Placed model.toTypeSystem
  interfaceFields : ∀ entry ∈ model.interfaces, ∀ field ∈ entry.2.fields,
    field.Placed model.toTypeSystem
  queryFields : ∀ field ∈ model.query.fields, field.Placed model.toTypeSystem
  mutationFields : ∀ root, model.mutation = some root → ∀ field ∈ root.fields,
    field.Placed model.toTypeSystem
  inputFields : ∀ entry ∈ model.inputs, ∀ field ∈ entry.2.fields, field.Placed model.toTypeSystem
  argumentSets : ∀ entry ∈ model.argumentSets, ∀ argument ∈ entry.2,
    argument.Placed model.toTypeSystem
  members : ∀ entry ∈ model.unions, ∀ member ∈ entry.2.members, member ∈ Table.keys model.objects
  implementers : ∀ entry ∈ model.interfaces, ∀ object ∈ entry.2.implementers,
    object ∈ Table.keys model.objects
  objectInterfaces : ∀ entry ∈ model.objects, ∀ interface ∈ entry.2.interfaces,
    interface ∈ Table.keys model.interfaces
  interfaceInterfaces : ∀ entry ∈ model.interfaces, ∀ interface ∈ entry.2.interfaces,
    interface ∈ Table.keys model.interfaces

namespace PlainRoots

variable {options : AnalysisOptions} {catalog : Catalog} {effective : Table FieldSet}

theorem addMethod_fields {P : ModelField → Prop}
    (hroot : ∀ entry field, rootField options catalog effective entry = some field → P field)
    {draft : RootDraft} (h : ∀ field ∈ draft.query ++ draft.mutation, P field)
    (entry : ResolverEntry) :
    ∀ field ∈ (addMethod options catalog effective draft entry).query ++
      (addMethod options catalog effective draft entry).mutation, P field := by
  simp only [addMethod]
  split
  next => exact h
  next =>
    cases hlinked : rootField options catalog effective entry with
    | none => exact h
    | some linked =>
      have hnew := hroot entry linked hlinked
      rw [List.forall_mem_append] at h
      cases entry.method.operation with
      | query =>
        simp only [Roots.addField, List.forall_mem_append, List.forall_mem_singleton]
        exact ⟨⟨h.1, hnew⟩, h.2⟩
      | mutation =>
        simp only [Roots.addField, List.forall_mem_append, List.forall_mem_singleton]
        exact ⟨h.1, h.2, hnew⟩

/-- Every root field is one that some method becomes. -/
theorem draft_fields {P : ModelField → Prop}
    (hroot : ∀ entry field, rootField options catalog effective entry = some field → P field)
    (classes : List TypeName) :
    ∀ field ∈ (draft options catalog effective classes).query ++
      (draft options catalog effective classes).mutation, P field := by
  unfold draft
  induction requestedMethods catalog classes using List.reverseRecOn with
  | nil => exact List.forall_mem_nil _
  | append_singleton methods method ih =>
    rw [List.foldl_concat]
    exact addMethod_fields hroot ih method

end PlainRoots

namespace Analysed

variable {options : AnalysisOptions} {classes : List TypeName} {catalog : Catalog}
  {model : SchemaModel}

/-- The tables are looked up in another order than in the catalog, but no name is in two of them. -/
theorem kindOf (h : Analysed options classes catalog model) (name : String) :
    model.kindOf name =
      if isBuiltinScalar name then none else (catalog.kindOf name).bind NamedKind.listed? := by
  rw [TypeSystem.kindOf, h.objects, h.interfaces, h.inputs, h.unions, h.scalars, h.enums]
  simp only [Table.contains_map, h.named.contains_typesOfKind]
  cases hentry : catalog.get? name with
  | some entry =>
    -- A declared type is in no other table.
    have hname := Table.mem_keys_of_get? hentry
    have hbuiltin := h.named.not_builtin name (List.mem_append_left _ hname)
    obtain ⟨hscalar, henum, hunion⟩ := h.named.notMem_of_type hname
    rw [← Table.contains_eq_false_iff] at hscalar henum hunion
    rw [h.named.kindOf_of_get? hentry, hscalar, henum, hunion, hbuiltin]
    cases hkind : entry.kind <;> simp [hkind, NamedKind.listed?]
  | none =>
    -- Otherwise it is a scalar, an enum or a union, and only one of them.
    by_cases hbuiltin : isBuiltinScalar name = true
    · have hfree : name ∉ catalog.names := fun hname => by
        rw [h.named.not_builtin name hname] at hbuiltin
        cases hbuiltin
      simp only [Catalog.names, List.mem_append, not_or, ← Table.contains_eq_false_iff] at hfree
      simp [hbuiltin, hfree]
    · rw [Bool.not_eq_true] at hbuiltin
      rw [Catalog.kindOf, hentry, hbuiltin]
      by_cases hscalar : Table.contains catalog.scalars name = true
      · have hunion := (h.named.notMem_of_scalar (Table.contains_iff.mp hscalar)).2
        rw [← Table.contains_eq_false_iff] at hunion
        simp [hscalar, hunion, NamedKind.listed?]
      · by_cases henum : Table.contains catalog.enums name = true
        · have hunion := h.named.notMem_of_enum (Table.contains_iff.mp henum)
          rw [← Table.contains_eq_false_iff] at hunion
          simp [hscalar, henum, hunion, NamedKind.listed?]
        · by_cases hunion : Table.contains catalog.unions name = true <;>
            simp [hscalar, henum, hunion, NamedKind.listed?]

theorem allows_of_admits (h : Analysed options classes catalog model) {position : Position}
    {kinds : List ModelKind}
    (hkinds : ∀ kind, position.accepts kind = true → ∃ listed ∈ kinds, kind.listed? = some listed)
    {name : String} (hadmits : catalog.Admits position name) :
    model.Allows kinds name := by
  obtain ⟨kind, hkind, haccepts⟩ := hadmits
  by_cases hbuiltin : isBuiltinScalar name = true
  · exact Or.inl hbuiltin
  · obtain ⟨listed, hlisted, he⟩ := hkinds kind haccepts
    refine Or.inr ⟨listed, hlisted, ?_⟩
    rw [h.kindOf, if_neg hbuiltin, hkind, Option.bind_some, he]

theorem allows_output (h : Analysed options classes catalog model) {name : String}
    (hadmits : catalog.Admits .output name) : model.Allows ModelKind.outputs name := by
  refine h.allows_of_admits (fun kind haccepts => ?_) hadmits
  cases kind with
  | declared kind =>
    cases kind with
    | object => exact ⟨.object, by decide, rfl⟩
    | interface => exact ⟨.interface, by decide, rfl⟩
    | input | argumentSet => cases haccepts
  | scalar => exact ⟨.scalar, by decide, rfl⟩
  | enum => exact ⟨.enum, by decide, rfl⟩
  | union => exact ⟨.union, by decide, rfl⟩

theorem argument_placed (h : Analysed options classes catalog model) {argument : ModelArgument}
    (hadmits : catalog.Admits .input argument.type.namedType) :
    argument.Placed model.toTypeSystem := by
  refine h.allows_of_admits (fun kind haccepts => ?_) hadmits
  cases kind with
  | declared kind =>
    cases kind with
    | input => exact ⟨.input, by decide, rfl⟩
    | object | interface | argumentSet => cases haccepts
  | scalar => exact ⟨.scalar, by decide, rfl⟩
  | enum => exact ⟨.enum, by decide, rfl⟩
  | union => cases haccepts

theorem field_placed (h : Analysed options classes catalog model) {owner declaredBy : String}
    {field : FieldDeclaration} {linked : ModelField}
    (hlinked : PlainLinking.linkField catalog (catalog.finalFields options) owner declaredBy field =
      some linked) : linked.Placed model.toTypeSystem := by
  obtain ⟨htype, harguments⟩ := PlainLinking.linkField_admits hlinked
  exact ⟨h.allows_output htype, fun argument hm => h.argument_placed (harguments argument hm)⟩

theorem fields_placed (h : Analysed options classes catalog model) (owner : String) :
    ∀ field ∈ PlainLinking.linkFields catalog (catalog.finalFields options) owner,
      field.Placed model.toTypeSystem := by
  intro field hfield
  obtain ⟨seen, -, hlinked⟩ := List.mem_filterMap.mp hfield
  exact h.field_placed hlinked

theorem roots_placed (h : Analysed options classes catalog model) :
    ∀ field ∈ (PlainRoots.draft options catalog (catalog.finalFields options) classes).query ++
      (PlainRoots.draft options catalog (catalog.finalFields options) classes).mutation,
      field.Placed model.toTypeSystem :=
  PlainRoots.draft_fields (fun _ _ => h.field_placed) classes

theorem interface_declared (h : Analysed options classes catalog model) {name : String}
    {object : ObjectType} (hobject : (name, object) ∈ model.objects) {interface : String}
    (hinterface : interface ∈ object.interfaces) : interface ∈ Table.keys model.interfaces := by
  obtain ⟨interfaces, own, hsettled, rfl, -⟩ := h.exists_object hobject
  exact h.mem_keys_interfaces.mpr
    (Catalog.interface_of_mem_interfacesOf hsettled.derived hinterface)

/-- The interfaces of an interface are its ancestors. -/
theorem ancestor_declared (h : Analysed options classes catalog model) {name : String}
    {type : InterfaceType} (htype : (name, type) ∈ model.interfaces) {interface : String}
    (hinterface : interface ∈ type.interfaces) : interface ∈ Table.keys model.interfaces := by
  rw [h.interfaces] at htype
  obtain ⟨entry, hentry, hkind, rfl⟩ := h.named.exists_entry_of_mem_map htype
  obtain ⟨chain, hchain⟩ := h.lineages name (Table.mem_keys_of_get? hentry)
  obtain ⟨ancestors, rfl⟩ := hchain.exists_cons
  rw [PlainLinking.interfaceType, h.recorded_ancestors hentry hkind hchain] at hinterface
  obtain ⟨found, hfound, hsame⟩ :=
    hchain.declared hentry interface (List.mem_cons_of_mem name hinterface)
  exact h.mem_keys_interfaces.mpr ⟨found, hfound, hsame.trans hkind⟩

theorem closed (h : Analysed options classes catalog model) : model.Closed where
  objectFields := by
    rw [h.objects, List.forall_mem_map]
    intro type _
    exact h.fields_placed type.1
  interfaceFields := by
    rw [h.interfaces, List.forall_mem_map]
    intro type _
    exact h.fields_placed type.1
  queryFields := by
    rw [h.query]
    intro field hfield
    exact h.roots_placed field (List.mem_append_left _ hfield)
  mutationFields := by
    intro root hroot
    rw [h.mutation] at hroot
    split at hroot
    next => cases hroot
    next =>
      obtain rfl := Option.some.inj hroot
      intro field hfield
      exact h.roots_placed field (List.mem_append_right _ hfield)
  inputFields := by
    rw [h.inputs, List.forall_mem_map]
    intro type _ field hfield
    exact h.argument_placed (PlainLinking.admits_of_mem_inputs hfield)
  argumentSets := by
    intro entry hentry argument hargument
    rw [h.argumentSets entry hentry] at hargument
    exact h.argument_placed (PlainLinking.admits_of_mem_inputs hargument)
  members := by
    rw [h.unions, List.forall_mem_map]
    intro union hunion member hmember
    exact h.member_declared hunion hmember
  implementers := by
    intro entry hentry object hobject
    rw [h.implementers hentry] at hobject
    obtain ⟨found, hfound, rfl⟩ := List.mem_map.mp hobject
    exact Table.mem_keys_of_mem (List.mem_of_mem_filter hfound)
  objectInterfaces := fun _ hentry _ hinterface => h.interface_declared hentry hinterface
  interfaceInterfaces := fun _ hentry _ hinterface => h.ancestor_declared hentry hinterface

end Analysed

/-- A model that an analysis makes is closed, and its names stand for what they stand for in the
catalog of the registry. -/
theorem analyze_closed {options : AnalysisOptions} {registry : Registry} {classes : List TypeName}
    {model : SchemaModel} (h : analyze options registry classes = .ok model) :
    model.Closed ∧ ∃ catalog, Catalog.ofRegistry registry = .ok catalog ∧ ∀ name, model.kindOf name =
      if isBuiltinScalar name then none else (catalog.kindOf name).bind NamedKind.listed? := by
  obtain ⟨catalog, hcatalog, hanalysed⟩ := analysed_of_analyze h
  exact ⟨hanalysed.closed, catalog, hcatalog, hanalysed.kindOf⟩

theorem analyze_closed_kennel :
    ∃ model, analyze {} Registry.kennel [.literal "Store"] = .ok model ∧
      model.query.fields.map ModelField.name = ["pet"] ∧
      model.argumentSets.map Prod.fst = ["Volume"] ∧ model.Closed := by
  have hrun : (analyze {} Registry.kennel [.literal "Store"]).toOption.any (fun model =>
      decide (model.query.fields.map ModelField.name = ["pet"]) &&
        decide (model.argumentSets.map Prod.fst = ["Volume"])) = true := by
    decide +kernel
  obtain ⟨model, hmodel, hfacts⟩ := exists_ok_of_any hrun
  simp only [Bool.and_eq_true, decide_eq_true_eq] at hfacts
  exact ⟨model, hmodel, hfacts.1, hfacts.2, (analyze_closed hmodel).1⟩

end Schemata
