import Schemata.Proofs.AnalysedModel

namespace Schemata

/-- A field may stand for one of an interface: it has the same type and takes the same arguments,
and what it takes besides may be left out. -/
structure ModelField.Implements (field required : ModelField) : Prop where
  type : field.type = required.type
  arguments : ∀ argument ∈ required.arguments,
    ∃ taken ∈ field.arguments, taken.name = argument.name ∧ taken.type = argument.type
  further : ∀ taken ∈ field.arguments,
    (∀ argument ∈ required.arguments, argument.name ≠ taken.name) → taken.type.isNonNull = false

theorem filter_name_eq_singleton {fields : List ModelField} {field : ModelField}
    (hn : (fields.map ModelField.name).Nodup) (hm : field ∈ fields) :
    fields.filter (fun other => decide (other.name = field.name)) = [field] := by
  induction fields with
  | nil => cases hm
  | cons first rest ih =>
    rw [List.map_cons, List.nodup_cons] at hn
    rcases List.mem_cons.mp hm with rfl | hm
    · have hrest : rest.filter (fun other => decide (other.name = field.name)) = [] := by
        rw [List.filter_eq_nil_iff]
        intro other hother he
        exact hn.1 (of_decide_eq_true he ▸ List.mem_map_of_mem hother)
      rw [List.filter_cons, if_pos (decide_eq_true rfl), hrest]
    · have hne : ¬first.name = field.name := fun he => hn.1 (he ▸ List.mem_map_of_mem hm)
      rw [List.filter_cons, decide_eq_false hne, if_neg Bool.false_ne_true, ih hn.2 hm]

namespace PlainLinking

open Requirement (Fulfils argumentTypes argumentMismatches_eq_nil_iff)

variable {catalog : Catalog} {effective : Table FieldSet}

theorem mem_typed {arguments : List ModelArgument} {name : String} {type : Signature} :
    (name, type) ∈ arguments.map typed ↔
      ∃ argument ∈ arguments, argument.name = name ∧ argument.type = type := by
  simp only [List.mem_map, typed, Prod.mk.injEq]

/-- A declaration that fulfils another is linked to a field that implements it. -/
theorem IsLinked.implements {candidate required : FieldDeclaration}
    {field requiredField : ModelField} (hfield : IsLinked catalog effective candidate field)
    (hrequired : IsLinked catalog effective required requiredField)
    (h : Fulfils catalog effective candidate required) : field.Implements requiredField := by
  obtain ⟨hthere, hfurther⟩ := argumentMismatches_eq_nil_iff.mp h.arguments
  refine ⟨?_, ?_, ?_⟩
  · rw [hfield.type, hrequired.type, h.type]
  · intro argument hargument
    have hexpected : (argument.name, argument.type) ∈ argumentTypes catalog effective required := by
      rw [← hrequired.arguments]
      exact mem_typed.mpr ⟨argument, hargument, rfl, rfl⟩
    have hfound := Table.mem_of_get? (hthere _ _ hexpected)
    rw [← hfield.arguments] at hfound
    exact mem_typed.mp hfound
  · intro taken htaken hnew
    have hfound : (taken.name, taken.type) ∈ argumentTypes catalog effective candidate := by
      rw [← hfield.arguments]
      exact mem_typed.mpr ⟨taken, htaken, rfl, rfl⟩
    apply hfurther _ _ hfound
    intro hexpected
    obtain ⟨type, htype⟩ := Table.exists_get?_of_mem_keys hexpected
    have hrequested := Table.mem_of_get? htype
    rw [← hrequired.arguments] at hrequested
    obtain ⟨argument, hargument, hname, -⟩ := mem_typed.mp hrequested
    exact hnew argument hargument hname

end PlainLinking

namespace Analysed

open Requirement (Fulfils violations_eq_nil_iff get?_completed)

variable {options : AnalysisOptions} {classes : List TypeName} {catalog : Catalog}
  {model : SchemaModel}

/-- The declaration with which a settled object fulfils a field of one of its interfaces. -/
theorem exists_candidate (h : Analysed options classes catalog model) {object interface : String}
    {interfaces : List String} {own fields : FieldSet}
    (hsettled : Settled options catalog object interfaces own)
    (hinterface : interface ∈ interfaces)
    (hfields : Table.get? catalog.flattened interface = some fields) {required : SeenField}
    (hrequired : required ∈ Table.values fields) :
    ∃ found ∈ PlainLinking.fieldsAt (catalog.finalFields options) object,
      found.declaration.name = required.declaration.name ∧
        Fulfils catalog catalog.flattened found.declaration required.declaration := by
  obtain ⟨name, hentry⟩ := Table.mem_values_iff.mp hrequired
  obtain ⟨found, hcandidate, hfulfils⟩ := violations_eq_nil_iff.mp hsettled.unviolated interface
    hinterface fields hfields name required hentry
  rw [← get?_completed (Catalog.wellKeyed_of_flattened hsettled.flattened)] at hcandidate
  have hmem := Table.mem_of_get? hcandidate
  have hfound : found.declaration.name = name :=
    (h.finalFields_wellKeyed hsettled.completed).named _ hmem
  have hname : required.declaration.name = name :=
    (Catalog.wellKeyed_of_flattened hfields).named _ hentry
  refine ⟨found, ?_, hfound.trans hname.symm, hfulfils⟩
  rw [PlainLinking.fieldsAt, hsettled.completed, Option.getD_some]
  exact Table.mem_values_iff.mpr ⟨name, hmem⟩

theorem fieldNames_nodup (h : Analysed options classes catalog model) {name : String}
    (hnone : PlainLinking.fieldsProblems catalog (catalog.finalFields options) name = []) :
    ((PlainLinking.linkFields catalog (catalog.finalFields options) name).map
      ModelField.name).Nodup := by
  rw [PlainLinking.linkFields_names (fun _ _ => h.finalFields_wellKeyed) hnone,
    PlainLinking.fieldsAt]
  cases hfields : Table.get? (catalog.finalFields options) name with
  | none => exact List.nodup_nil
  | some fields =>
    have hkeyed := h.finalFields_wellKeyed hfields
    have hkeys : (Table.values fields).map (fun seen => seen.declaration.name) =
        Table.keys fields := by
      rw [Table.values, Table.keys, List.map_map]
      exact List.map_congr_left hkeyed.named
    rw [Option.getD_some, hkeys]
    exact hkeyed.nodup

theorem conforms (h : Analysed options classes catalog model) {name : String} {object : ObjectType}
    (hobject : (name, object) ∈ model.objects) {interface : String}
    (hinterface : interface ∈ object.interfaces) :
    ∃ type, Table.get? model.interfaces interface = some type ∧
      ∀ required ∈ type.fields, ∃ field,
        object.fields.filter (fun other => decide (other.name = required.name)) = [field] ∧
          field.Implements required := by
  obtain ⟨interfaces, own, hsettled, rfl, hfields, hnone⟩ := h.exists_object hobject
  obtain ⟨entry, hentry, hkind⟩ := Catalog.interface_of_mem_interfacesOf hsettled.derived hinterface
  obtain ⟨type, fields, htype, hflattened, hfinal, hlinked, hfine⟩ := h.exists_interface hentry hkind
  have hkeyed (name : String) (fields : FieldSet)
      (hget : Table.get? (catalog.finalFields options) name = some fields) : fields.WellKeyed :=
    h.finalFields_wellKeyed hget
  refine ⟨type, htype, fun required hrequired => ?_⟩
  rw [hlinked] at hrequired
  -- From the field of the interface to its declaration, to the declaration that fulfils it, and from
  -- there to the field of the object.
  obtain ⟨seen, hseen, hrequired⟩ := PlainLinking.exists_seen hkeyed hfine hrequired
  rw [PlainLinking.fieldsAt, hfinal, Option.getD_some] at hseen
  obtain ⟨found, hfound, hname, hfulfils⟩ := h.exists_candidate hsettled hinterface hflattened hseen
  obtain ⟨field, hfield, his⟩ := PlainLinking.exists_linked hkeyed hnone hfound
  have hsame : required.name = field.name := by rw [hrequired.name, his.name, hname]
  refine ⟨field, ?_, his.implements hrequired ⟨hfulfils.type, ?_⟩⟩
  · rw [hsame, hfields]
    exact filter_name_eq_singleton (h.fieldNames_nodup hnone) hfield
  -- Validation compared arguments before it completed the objects.
  · rw [h.argumentTypes_finalFields, h.argumentTypes_finalFields]
    exact hfulfils.arguments

/-- A field of an object stands for every field of its name in the interfaces of the object. -/
theorem field_implements (h : Analysed options classes catalog model) {name interface : String}
    {object : ObjectType} (hobject : (name, object) ∈ model.objects)
    (hinterface : interface ∈ object.interfaces) {type : InterfaceType}
    (htype : Table.get? model.interfaces interface = some type) {required : ModelField}
    (hrequired : required ∈ type.fields) {field : ModelField} (hfield : field ∈ object.fields)
    (hname : field.name = required.name) : field.Implements required := by
  obtain ⟨found, hfound, hconforms⟩ := h.conforms hobject hinterface
  obtain rfl := Option.some.inj (htype.symm.trans hfound)
  obtain ⟨only, honly, himplements⟩ := hconforms required hrequired
  have hmem : field ∈ object.fields.filter fun other => decide (other.name = required.name) :=
    List.mem_filter.mpr ⟨hfield, decide_eq_true hname⟩
  rw [honly, List.mem_singleton] at hmem
  rwa [hmem]

end Analysed

/-- Every object of a model has, for each field of each interface it lists, exactly one field of that
name, and it implements the interface's. -/
theorem analyze_conforms {options : AnalysisOptions} {registry : Registry}
    {classes : List TypeName} {model : SchemaModel}
    (h : analyze options registry classes = .ok model) :
    ∀ name object, (name, object) ∈ model.objects → ∀ interface ∈ object.interfaces,
      ∃ type, Table.get? model.interfaces interface = some type ∧
        ∀ required ∈ type.fields, ∃ field,
          object.fields.filter (fun other => decide (other.name = required.name)) = [field] ∧
            field.Implements required := by
  obtain ⟨catalog, -, hanalysed⟩ := analysed_of_analyze h
  intro name object hobject interface hinterface
  exact hanalysed.conforms hobject hinterface

theorem analyze_conforms_kennel :
    ∃ model object type, analyze {} Registry.kennel [.literal "Store"] = .ok model ∧
      ("Dog", object) ∈ model.objects ∧ "Animal" ∈ object.interfaces ∧
      Table.get? model.interfaces "Animal" = some type ∧
      type.fields.map ModelField.name = ["id", "sound"] ∧
      ∀ required ∈ type.fields, ∃ field,
        object.fields.filter (fun other => decide (other.name = required.name)) = [field] ∧
          field.Implements required := by
  have hrun : (analyze {} Registry.kennel [.literal "Store"]).toOption.any (fun model =>
      (Table.get? model.objects "Dog").any (fun object => decide ("Animal" ∈ object.interfaces)) &&
        (Table.get? model.interfaces "Animal").any fun type =>
          decide (type.fields.map ModelField.name = ["id", "sound"])) = true := by
    decide +kernel
  obtain ⟨model, hmodel, hfacts⟩ := exists_ok_of_any hrun
  simp only [Bool.and_eq_true, Option.any_eq_true, decide_eq_true_eq] at hfacts
  obtain ⟨⟨object, hobject, hinterface⟩, type, htype, hfields⟩ := hfacts
  have hmem := Table.mem_of_get? hobject
  obtain ⟨found, hfound, hconforms⟩ := analyze_conforms hmodel "Dog" object hmem "Animal" hinterface
  obtain rfl := Option.some.inj (htype.symm.trans hfound)
  exact ⟨model, object, type, hmodel, hmem, hinterface, htype, hfields, hconforms⟩

end Schemata
