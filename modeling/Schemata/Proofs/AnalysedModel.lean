import Schemata.Proofs.Analysis
import Schemata.Proofs.LinkedFields

namespace Schemata.Analysed

open Requirement (violations completed argumentTypes argumentTypes_of_others)

variable {options : AnalysisOptions} {classes : List TypeName} {catalog : Catalog}
  {model : SchemaModel}

theorem allFields_eq (h : Analysed options classes catalog model) :
    catalog.allFields = .ok catalog.flattened :=
  (Catalog.allFields_eq_ok_iff h.named.types_nodup).mpr ⟨h.lineages, rfl⟩

/-- Validation changes the field sets of objects only. -/
theorem finalFields_of_kind (h : Analysed options classes catalog model) {name : String}
    {entry : TypeEntry} (hentry : catalog.get? name = some entry) (hkind : entry.kind ≠ .object) :
    Table.get? (catalog.finalFields options) name = Table.get? catalog.flattened name :=
  Fulfilment.agreeOnOthers_run _ _ _ h.named.types_nodup name entry hentry hkind

theorem argumentTypes_finalFields (h : Analysed options classes catalog model)
    (field : FieldDeclaration) :
    argumentTypes catalog (catalog.finalFields options) field =
      argumentTypes catalog catalog.flattened field :=
  argumentTypes_of_others (fun _ _ => h.finalFields_of_kind) field

theorem finalFields_wellKeyed (h : Analysed options classes catalog model) {name : String}
    {fields : FieldSet} (hfields : Table.get? (catalog.finalFields options) name = some fields) :
    fields.WellKeyed := by
  rw [Catalog.finalFields, Catalog.fulfilment,
    Fulfilment.get?_run_effective _ _ _ h.named.types_nodup] at hfields
  obtain ⟨own, hown, rfl⟩ := Option.map_eq_some_iff.mp hfields
  have hkeyed := Catalog.wellKeyed_of_flattened hown
  split
  next =>
    exact Fulfilment.settledFields_wellKeyed (fun _ _ => Catalog.wellKeyed_of_flattened) _ hkeyed
  next => exact hkeyed

/-- What validation has made sure of for an object. -/
structure Settled (options : AnalysisOptions) (catalog : Catalog) (object : String)
    (interfaces : List String) (own : FieldSet) : Prop where
  derived : catalog.interfacesOf object = .ok interfaces
  flattened : Table.get? catalog.flattened object = some own
  unviolated : violations catalog catalog.flattened object interfaces own
    (Fulfilment.suppliedTo catalog catalog.flattened options.inheritInterfaceFields interfaces own) = []
  completed : Table.get? (catalog.finalFields options) object = some (completed own
    (Fulfilment.suppliedTo catalog catalog.flattened options.inheritInterfaceFields interfaces own))
  recorded : Table.get? (catalog.fulfilment options).relation.interfaces object = some interfaces

theorem exists_settled (h : Analysed options classes catalog model) {name : String}
    {entry : TypeEntry} (hentry : catalog.get? name = some entry) (hkind : entry.kind = .object) :
    ∃ interfaces own, Settled options catalog name interfaces own := by
  have hname := h.named.mem_typesOfKind.mpr ⟨entry, hentry, hkind⟩
  have hfulfilled := ((Fulfilment.run_problems_eq_nil_iff _ _ _
    h.named.types_nodup).mp h.fulfilled).2 name hname
  obtain ⟨own, hown⟩ : ∃ own, Table.get? catalog.flattened name = some own := by
    rw [Catalog.get?_flattened, hentry]
    exact ⟨_, rfl⟩
  obtain ⟨interfaces, hi, hviolations⟩ := Fulfilment.objectProblems_eq_nil_iff.mp hfulfilled
  refine ⟨interfaces, own, ⟨hi, hown, hviolations own hown, ?_, ?_⟩⟩
  · rw [Catalog.finalFields, Catalog.fulfilment,
      Fulfilment.get?_run_effective _ _ _ h.named.types_nodup, hown, Option.map_some,
      if_pos hname, Fulfilment.settledFields_of_fine hfulfilled hi]
  · rw [Catalog.fulfilment, Fulfilment.run_interfaces _ _ _ h.named.types_nodup,
      Table.get?_filterMap, if_pos hname, Fulfilment.recorded?, hi]
    simp only [hown, Option.map_some]

/-- Validation has made sure of an object what its interfaces and its fields ask for. -/
theorem settled (h : Analysed options classes catalog model) {name : String} {entry : TypeEntry}
    (hentry : catalog.get? name = some entry) (hkind : entry.kind = .object)
    {interfaces : List String} {own : FieldSet} (hi : catalog.interfacesOf name = .ok interfaces)
    (hown : Table.get? catalog.flattened name = some own) :
    Settled options catalog name interfaces own := by
  obtain ⟨derived, fields, hsettled⟩ := h.exists_settled hentry hkind
  obtain rfl := Except.ok.inj (hi.symm.trans hsettled.derived)
  obtain rfl := Option.some.inj (hown.symm.trans hsettled.flattened)
  exact hsettled

/-- The ancestors recorded of an interface are the rest of its lineage. -/
theorem recorded_ancestors (h : Analysed options classes catalog model) {name : String}
    {entry : TypeEntry} (hentry : catalog.get? name = some entry) (hkind : entry.kind = .interface)
    {ancestors : List String} (hchain : catalog.IsLineage name (name :: ancestors)) :
    Table.get? (catalog.fulfilment options).relation.ancestors name = some ancestors := by
  have hlisted := h.named.mem_typesOfKind.mpr ⟨entry, hentry, hkind⟩
  exact Fulfilment.get?_run_ancestors _ _ _ h.named.types_nodup hlisted
    (Catalog.lineage_eq_ok_iff.mpr hchain)

theorem objects (h : Analysed options classes catalog model) :
    model.objects = (catalog.typesOfKind .object).map fun type =>
      (type.1, PlainLinking.objectType catalog (catalog.finalFields options)
        (catalog.fulfilment options).relation type.1 type.2) := by
  obtain ⟨_, _, ht⟩ := h.types
  exact congrArg TypeSystem.objects ht

theorem interfaces (h : Analysed options classes catalog model) :
    model.interfaces = (catalog.typesOfKind .interface).map fun type =>
      (type.1, PlainLinking.interfaceType catalog (catalog.finalFields options)
        (catalog.fulfilment options).relation type.1 type.2) := by
  obtain ⟨_, _, ht⟩ := h.types
  exact congrArg TypeSystem.interfaces ht

theorem inputs (h : Analysed options classes catalog model) :
    model.inputs = (catalog.typesOfKind .input).map fun type =>
      (type.1, PlainLinking.inputType catalog (catalog.finalFields options) type.1 type.2) := by
  obtain ⟨_, _, ht⟩ := h.types
  exact congrArg TypeSystem.inputs ht

theorem unions (h : Analysed options classes catalog model) :
    model.unions = catalog.unions.map fun union =>
      (union.1, ⟨union.2.description, union.2.members, union.2.resolveType⟩) := by
  obtain ⟨_, _, ht⟩ := h.types
  exact congrArg TypeSystem.unions ht

theorem scalars (h : Analysed options classes catalog model) :
    model.scalars = catalog.scalars.map fun scalar => (scalar.1, ⟨scalar.2.description⟩) := by
  obtain ⟨_, _, ht⟩ := h.types
  exact congrArg TypeSystem.scalars ht

theorem enums (h : Analysed options classes catalog model) :
    model.enums = catalog.enums.map fun enum =>
      (enum.1, ⟨enum.2.description, enum.2.values⟩) := by
  obtain ⟨_, _, ht⟩ := h.types
  exact congrArg TypeSystem.enums ht

theorem elements (h : Analysed options classes catalog model) :
    model.elements = catalog.elements := by
  obtain ⟨_, _, ht⟩ := h.types
  exact congrArg TypeSystem.elements ht

theorem argumentSets (h : Analysed options classes catalog model) :
    ∀ entry ∈ model.argumentSets,
      entry.2 = PlainLinking.setArguments catalog (catalog.finalFields options) entry.1 := by
  obtain ⟨sets, hsound, ht⟩ := h.types
  have hsets : model.argumentSets = sets := congrArg TypeSystem.argumentSets ht
  rw [hsets]
  intro entry hentry
  exact (hsound entry hentry).1

theorem typeProblems_eq_nil (h : Analysed options classes catalog model) {name : String}
    {entry : TypeEntry} (hentry : catalog.get? name = some entry) :
    PlainLinking.typeProblems catalog (catalog.finalFields options) (name, entry) = [] := by
  have hlinked := h.linked
  rw [PlainLinking.problems, List.append_eq_nil_iff, List.flatMap_eq_nil_iff] at hlinked
  exact hlinked.1 (name, entry) (Table.mem_of_get? hentry)

theorem fieldsProblems_eq_nil (h : Analysed options classes catalog model) {name : String}
    {entry : TypeEntry} (hentry : catalog.get? name = some entry)
    (hkind : entry.kind.isOutput = true) :
    PlainLinking.fieldsProblems catalog (catalog.finalFields options) name = [] := by
  have htype := h.typeProblems_eq_nil hentry
  cases hk : entry.kind with
  | object | interface => simpa only [PlainLinking.typeProblems, hk] using htype
  | input | argumentSet =>
    rw [hk] at hkind
    cases hkind

/-- An object of the model, with the fields that validation has left it. -/
theorem exists_object (h : Analysed options classes catalog model) {name : String}
    {object : ObjectType} (hobject : (name, object) ∈ model.objects) :
    ∃ interfaces own, Settled options catalog name interfaces own ∧
      object.interfaces = interfaces ∧
      object.fields = PlainLinking.linkFields catalog (catalog.finalFields options) name ∧
      PlainLinking.fieldsProblems catalog (catalog.finalFields options) name = [] := by
  rw [h.objects] at hobject
  obtain ⟨entry, hentry, hkind, rfl⟩ := h.named.exists_entry_of_mem_map hobject
  obtain ⟨interfaces, own, hsettled⟩ := h.exists_settled hentry hkind
  refine ⟨interfaces, own, hsettled, ?_, rfl, h.fieldsProblems_eq_nil hentry (by rw [hkind]; rfl)⟩
  rw [PlainLinking.objectType, hsettled.recorded, Option.getD_some]

theorem get?_interfaces (h : Analysed options classes catalog model) {name : String}
    {entry : TypeEntry} (hentry : catalog.get? name = some entry) (hkind : entry.kind = .interface) :
    Table.get? model.interfaces name =
      some (PlainLinking.interfaceType catalog (catalog.finalFields options)
        (catalog.fulfilment options).relation name entry) := by
  rw [h.interfaces]
  exact h.named.get?_map_typesOfKind _ hentry hkind

/-- A declared interface, with the fields that it had before validation. -/
theorem exists_interface (h : Analysed options classes catalog model) {name : String}
    {entry : TypeEntry} (hentry : catalog.get? name = some entry) (hkind : entry.kind = .interface) :
    ∃ type fields, Table.get? model.interfaces name = some type ∧
      Table.get? catalog.flattened name = some fields ∧
      Table.get? (catalog.finalFields options) name = some fields ∧
      type.fields = PlainLinking.linkFields catalog (catalog.finalFields options) name ∧
      PlainLinking.fieldsProblems catalog (catalog.finalFields options) name = [] := by
  have hnot : entry.kind ≠ .object := by
    rw [hkind]
    exact TypeKind.noConfusion
  have hflattened : Table.get? catalog.flattened name =
      some (catalog.chainFields (catalog.ancestry name)) := by
    rw [Catalog.get?_flattened, hentry, Option.map_some]
  exact ⟨_, _, h.get?_interfaces hentry hkind, hflattened,
    (h.finalFields_of_kind hentry hnot).trans hflattened, rfl,
    h.fieldsProblems_eq_nil hentry (by rw [hkind]; rfl)⟩

theorem keys_objects (h : Analysed options classes catalog model) :
    Table.keys model.objects = Table.keys (catalog.typesOfKind .object) := by
  rw [h.objects, Table.keys_map]

theorem mem_keys_objects (h : Analysed options classes catalog model) {name : String} :
    name ∈ Table.keys model.objects ↔ ∃ entry, catalog.get? name = some entry ∧ entry.kind = .object := by
  rw [h.keys_objects, h.named.mem_typesOfKind]

theorem mem_keys_interfaces (h : Analysed options classes catalog model) {name : String} :
    name ∈ Table.keys model.interfaces ↔
      ∃ entry, catalog.get? name = some entry ∧ entry.kind = .interface := by
  rw [h.interfaces, Table.keys_map, h.named.mem_typesOfKind]

theorem member_declared (h : Analysed options classes catalog model) {union : String × UnionEntry}
    (hunion : union ∈ catalog.unions) {member : String} (hmember : member ∈ union.2.members) :
    member ∈ Table.keys model.objects := by
  have hlinked := h.linked
  simp only [PlainLinking.problems, List.append_eq_nil_iff, List.flatMap_eq_nil_iff] at hlinked
  have hproblems := hlinked.2 union hunion member hmember
  rw [PlainLinking.memberProblems] at hproblems
  split at hproblems
  next => cases hproblems
  next hkind => exact h.mem_keys_objects.mpr (Catalog.kindOf_eq_declared hkind)
  next => cases hproblems

theorem object_interfaces (h : Analysed options classes catalog model) {name : String}
    {object : ObjectType} (hobject : (name, object) ∈ model.objects) :
    object.interfaces = (Fulfilment.recorded? catalog catalog.flattened name).getD [] := by
  obtain ⟨interfaces, own, hsettled, rfl, -⟩ := h.exists_object hobject
  rw [Fulfilment.recorded?, hsettled.derived, hsettled.flattened]
  rfl

/-- The implementers of an interface are the objects that list it, in the order of the objects. -/
theorem implementers (h : Analysed options classes catalog model) {name : String}
    {type : InterfaceType} (htype : (name, type) ∈ model.interfaces) :
    type.implementers =
      (model.objects.filter fun object => decide (name ∈ object.2.interfaces)).map Prod.fst := by
  have hkeys : model.objects.map Prod.fst = Table.keys (catalog.typesOfKind .object) :=
    h.keys_objects
  have hfilter : (model.objects.filter fun object => decide (name ∈ object.2.interfaces)) =
      model.objects.filter fun object =>
        decide (name ∈ (Fulfilment.recorded? catalog catalog.flattened object.1).getD []) :=
    List.filter_congr fun object hobject => by rw [h.object_interfaces hobject]
  rw [h.interfaces] at htype
  obtain ⟨entry, hentry, hkind, rfl⟩ := h.named.exists_entry_of_mem_map htype
  have hlisted := h.named.mem_typesOfKind.mpr ⟨entry, hentry, hkind⟩
  rw [hfilter, ← Function.comp_def
    (fun object => decide (name ∈ (Fulfilment.recorded? catalog catalog.flattened object).getD []))
    Prod.fst, ← List.filter_map, hkeys, PlainLinking.interfaceType, Catalog.fulfilment,
    Fulfilment.run_implementers _ _ _ h.named.types_nodup, Table.get?_names_map,
    if_pos hlisted, Option.getD_some]

end Schemata.Analysed
