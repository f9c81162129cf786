import Schemata.Proofs.Representation

namespace Schemata

/-- Every field of an object is declared by an object: none is supplied by an interface. -/
def SchemaModel.Unsupplied (model : SchemaModel) : Prop :=
  ∀ name object, (name, object) ∈ model.objects →
    ∀ field ∈ object.fields, field.owner ∈ Table.keys model.objects

/-- The interfaces of an object ask for no field that it lacks. -/
def Catalog.Unsupplied (catalog : Catalog) : Prop :=
  ∀ object ∈ Table.keys (catalog.typesOfKind .object), ∀ interfaces own,
    catalog.interfacesOf object = .ok interfaces →
      Table.get? catalog.flattened object = some own →
        Requirement.suppliedFields catalog catalog.flattened interfaces own = []

namespace Requirement

variable {catalog : Catalog} {effective : Table FieldSet}

theorem offer_eq_nil_iff {own supplied : FieldSet} {name : String} {required : SeenField} :
    offer catalog own supplied name required = [] ↔ supplied = [] ∧ name ∈ Table.keys own := by
  rcases offer_cases catalog own supplied name required with ⟨he, hthere⟩ | ⟨hlacked, he⟩
  · rw [he]
    refine ⟨fun hnone => ⟨hnone, ?_⟩, And.left⟩
    rw [hnone] at hthere
    exact hthere.resolve_right List.not_mem_nil
  · rw [he]
    exact ⟨fun h => absurd h (Table.insert_ne_nil _ _ _), fun h => absurd h.2 hlacked⟩

theorem suppliedFields_eq_nil_iff {interfaces : List String} {own : FieldSet} :
    suppliedFields catalog effective interfaces own = [] ↔
      ∀ entry ∈ requiredFields effective interfaces, entry.2.1 ∈ Table.keys own := by
  rw [suppliedFields_eq]
  induction requiredFields effective interfaces using List.reverseRecOn with
  | nil => simp
  | append_singleton required last ih =>
    rw [List.foldl_concat, offer_eq_nil_iff, ih, List.forall_mem_append, List.forall_mem_singleton]

/-- What is supplied is lacked, and it is a required field. -/
theorem mem_suppliedFields {interfaces : List String} {own : FieldSet} :
    ∀ entry ∈ suppliedFields catalog effective interfaces own,
      entry.1 ∉ Table.keys own ∧ ∃ interface, (interface, entry) ∈ requiredFields effective interfaces := by
  rw [suppliedFields_eq]
  induction requiredFields effective interfaces using List.reverseRecOn with
  | nil => simp
  | append_singleton required last ih =>
    obtain ⟨interface, name, field⟩ := last
    have hkept : ∀ entry ∈ required.foldl
        (fun supplied entry => offer catalog own supplied entry.2.1 entry.2.2) [],
        entry.1 ∉ Table.keys own ∧
          ∃ other, (other, entry) ∈ required ++ [(interface, name, field)] := by
      intro entry hentry
      obtain ⟨hlacked, other, hother⟩ := ih entry hentry
      exact ⟨hlacked, other, List.mem_append_left _ hother⟩
    rw [List.foldl_concat]
    dsimp only
    generalize required.foldl
      (fun supplied entry => offer catalog own supplied entry.2.1 entry.2.2) [] =
        supplied at hkept ⊢
    rcases offer_cases catalog own supplied name field with ⟨he, -⟩ | ⟨hlacked, he⟩
    · rwa [he]
    · rw [he]
      exact Table.forall_mem_insert hkept
        ⟨hlacked, interface, List.mem_append_right _ List.mem_cons_self⟩

/-- A supplied field of a new name is one of the completed set. -/
theorem mem_completed {own supplied : FieldSet} (hown : own.WellKeyed)
    (hsupplied : (Table.keys supplied).Nodup) {entry : String × SeenField}
    (hentry : entry ∈ supplied) (hlacked : entry.1 ∉ Table.keys own) :
    entry ∈ completed own supplied := by
  apply Table.mem_of_get?
  rw [get?_completed hown, candidate?, (Table.get?_eq_none_iff _ _).mpr hlacked, Option.none_or]
  exact Table.get?_of_mem hsupplied hentry

end Requirement

namespace Fulfilment

theorem required_of_suppliedTo {catalog : Catalog} {effective : Table FieldSet} {inherit : Bool}
    {interfaces : List String} {own : FieldSet} {name : String} {seen : SeenField}
    (h : Table.get? (suppliedTo catalog effective inherit interfaces own) name = some seen) :
    ∃ interface, (interface, name, seen) ∈ Requirement.requiredFields effective interfaces := by
  rw [suppliedTo] at h
  split at h
  next => exact (Requirement.mem_suppliedFields _ (Table.mem_of_get? h)).2
  next => cases h

/-- Where nothing is supplied, a run does not depend on whether it may be. -/
theorem run_of_unsupplied {catalog : Catalog} (hn : (Table.keys catalog.types).Nodup)
    (h : catalog.Unsupplied) (inherit other : Bool) :
    run catalog catalog.flattened inherit = run catalog catalog.flattened other := by
  rw [run_eq _ _ _ hn, run_eq _ _ _ hn]
  refine objects_induction (visits_typesOfKind hn)
    (P := fun objects progress => progress = objects.foldl (checkObject catalog other) _) rfl
    fun before object progress hpart ih hreads => ?_
  rw [List.foldl_concat, ← ih, checkObject, checkObject]
  cases hi : catalog.interfacesOf object with
  | error found => rfl
  | ok interfaces =>
    cases ho : Table.get? progress.effective object with
    | none => simp only [ho]
    | some own =>
      have hobject := hpart.subset (List.mem_append_right before List.mem_cons_self)
      have hnone : Requirement.suppliedFields catalog progress.effective interfaces own = [] := by
        rw [Requirement.suppliedFields_of_others hreads.others hi]
        exact h object hobject interfaces own hi (hreads.own ▸ ho)
      simp only [ho, hnone, ite_self]

end Fulfilment

namespace Analysed

open Requirement

variable {options : AnalysisOptions} {classes : List TypeName} {catalog : Catalog}
  {model : SchemaModel}

/-- A field that a type has along its lineage is declared by a type of the same kind. -/
theorem owner_declared (h : Analysed options classes catalog model) {name field : String}
    {entry : TypeEntry} (hentry : catalog.get? name = some entry) {fields : FieldSet}
    (hfields : Table.get? catalog.flattened name = some fields) {seen : SeenField}
    (hseen : Table.get? fields field = some seen) :
    ∃ found, catalog.get? seen.owner = some found ∧ found.kind = entry.kind := by
  obtain ⟨chain, hchain⟩ := h.lineages name (Table.mem_keys_of_get? hentry)
  rw [Catalog.get?_flattened, hentry, Option.map_some, hchain.ancestry_eq] at hfields
  obtain rfl := Option.some.inj hfields
  exact hchain.declared hentry _ (Catalog.owner_mem_chain hseen)

/-- The fields of an object of the model are those that validation leaves it. -/
theorem object_carries (h : Analysed options classes catalog model) {name : String}
    {object : ObjectType} (hobject : (name, object) ∈ model.objects) :
    ∃ interfaces own, Settled options catalog name interfaces own ∧
      List.Forall₂ (ModelField.Carries catalog.elements) object.fields
        (Table.values (completed own (Fulfilment.suppliedTo catalog catalog.flattened
          options.inheritInterfaceFields interfaces own))) := by
  obtain ⟨interfaces, own, hsettled, -, hfields, hnone⟩ := h.exists_object hobject
  refine ⟨interfaces, own, hsettled, ?_⟩
  rw [hfields, ← PlainLinking.fieldsAt_eq hsettled.completed]
  exact PlainLinking.linkFields_carry hnone

/-- Without supply an object that is accepted has all required fields itself. -/
theorem unsupplied_of_strict (h : Analysed options classes catalog model)
    (hstrict : options.inheritInterfaceFields = false) : catalog.Unsupplied := by
  intro object hobject interfaces own hi hown
  obtain ⟨entry, hentry, hkind⟩ := h.named.mem_typesOfKind.mp hobject
  have hsettled := h.settled hentry hkind hi hown
  rw [suppliedFields_eq_nil_iff]
  rintro ⟨interface, name, required⟩ hrequired
  obtain ⟨hinterface, fields, hfields, hmem⟩ := mem_requiredFields.mp hrequired
  obtain ⟨found, hcandidate, -⟩ := violations_eq_nil_iff.mp hsettled.unviolated interface
    hinterface fields hfields name required hmem
  rw [candidate?, Fulfilment.suppliedTo, hstrict, if_neg Bool.false_ne_true, Table.get?_nil,
    Option.or_none] at hcandidate
  exact Table.mem_keys_of_get? hcandidate

/-- A field that is supplied stays with the interface that declares it. -/
theorem owner_of_supplied (h : Analysed options classes catalog model) {object : String}
    {interfaces : List String} (hi : catalog.interfacesOf object = .ok interfaces)
    {own : FieldSet} {entry : String × SeenField}
    (hentry : entry ∈ suppliedFields catalog catalog.flattened interfaces own) :
    ∃ owner, catalog.get? entry.2.owner = some owner ∧ owner.kind = .interface := by
  obtain ⟨-, interface, hrequired⟩ := mem_suppliedFields entry hentry
  obtain ⟨hinterface, fields, hfields, hmem⟩ := mem_requiredFields.mp hrequired
  obtain ⟨declared, hdeclared, hkind⟩ := Catalog.interface_of_mem_interfacesOf hi hinterface
  obtain ⟨owner, howner, hsame⟩ := h.owner_declared hdeclared hfields
    (Table.get?_of_mem (Catalog.wellKeyed_of_flattened hfields).nodup hmem)
  exact ⟨owner, howner, hsame.trans hkind⟩

theorem unsupplied_of_model (h : Analysed options classes catalog model)
    (hlenient : options.inheritInterfaceFields = true) (hmodel : model.Unsupplied) :
    catalog.Unsupplied := by
  intro object hobject interfaces own hi hown
  rw [← h.keys_objects] at hobject
  obtain ⟨type, htype⟩ := Table.exists_get?_of_mem_keys hobject
  obtain ⟨derived, set, hsettled, hcarries⟩ := h.object_carries (Table.mem_of_get? htype)
  obtain rfl := Except.ok.inj (hi.symm.trans hsettled.derived)
  obtain rfl := Option.some.inj (hown.symm.trans hsettled.flattened)
  rw [Fulfilment.suppliedTo, hlenient, if_pos rfl] at hcarries
  rw [List.eq_nil_iff_forall_not_mem]
  intro entry hentry
  -- The field is one of the object in the model, so that its owner would be an object.
  have hkeyed : (suppliedFields catalog catalog.flattened interfaces own).WellKeyed :=
    suppliedFields_wellKeyed (fun _ _ _ => Catalog.wellKeyed_of_flattened) own
  have hcompleted := mem_completed (Catalog.wellKeyed_of_flattened hown) hkeyed.nodup hentry
    (mem_suppliedFields entry hentry).1
  obtain ⟨field, hfield, hcarried⟩ := (exists_of_forall₂ hcarries).2 entry.2
    (Table.mem_values_iff.mpr ⟨entry.1, hcompleted⟩)
  have howner := hmodel object type (Table.mem_of_get? htype) field hfield
  rw [hcarried.owner, h.mem_keys_objects] at howner
  obtain ⟨owner, howner, hobject⟩ := howner
  obtain ⟨found, hfound, hinterface⟩ := h.owner_of_supplied hi hentry
  obtain rfl := Option.some.inj (howner.symm.trans hfound)
  rw [hobject] at hinterface
  cases hinterface

/-- An object to which nothing is supplied has the fields along its lineage. -/
theorem model_unsupplied (h : Analysed options classes catalog model)
    (hnone : catalog.Unsupplied) : model.Unsupplied := by
  intro name object hobject field hfield
  obtain ⟨interfaces, own, hsettled, hcarries⟩ := h.object_carries hobject
  have hlisted := Table.mem_keys_of_mem hobject
  obtain ⟨entry, hentry, hkind⟩ := h.mem_keys_objects.mp hlisted
  rw [h.keys_objects] at hlisted
  have hsupplied : Fulfilment.suppliedTo catalog catalog.flattened options.inheritInterfaceFields
      interfaces own = [] := by
    rw [Fulfilment.suppliedTo, hnone name hlisted _ _ hsettled.derived hsettled.flattened, ite_self]
  rw [hsupplied, completed, if_pos List.isEmpty_nil] at hcarries
  obtain ⟨seen, hseen, hcarried⟩ := (exists_of_forall₂ hcarries).1 field hfield
  obtain ⟨key, hmem⟩ := Table.mem_values_iff.mp hseen
  obtain ⟨found, hfound, hsame⟩ := h.owner_declared hentry hsettled.flattened
    (Table.get?_of_mem (Catalog.wellKeyed_of_flattened hsettled.flattened).nodup hmem)
  rw [hcarried.owner, h.mem_keys_objects]
  exact ⟨found, hfound, hsame.trans hkind⟩

end Analysed

/-- Where nothing is supplied, an analysis does not depend on whether it may be. -/
theorem analyze_of_unsupplied {registry : Registry} {catalog : Catalog}
    (hcatalog : Catalog.ofRegistry registry = .ok catalog) (h : catalog.Unsupplied)
    (options : AnalysisOptions) (classes : List TypeName) (inherit other : Bool) :
    analyze { options with inheritInterfaceFields := inherit } registry classes =
      analyze { options with inheritInterfaceFields := other } registry classes := by
  have hn := (Catalog.ofRegistry_wellNamed hcatalog).types_nodup
  have hground : Groundwork.ofRegistry { options with inheritInterfaceFields := inherit } registry =
      Groundwork.ofRegistry { options with inheritInterfaceFields := other } registry := by
    rw [Groundwork.ofRegistry, Groundwork.ofRegistry, hcatalog]
    cases hflattened : catalog.allFields with
    | error found => simp only [bind, Except.bind, hflattened]
    | ok flattened =>
      obtain ⟨-, rfl⟩ := (Catalog.allFields_eq_ok_iff hn).mp hflattened
      have hvalidated : catalog.validate catalog.flattened inherit =
          catalog.validate catalog.flattened other := by
        rw [Catalog.validate, Catalog.validate, Fulfilment.run_of_unsupplied hn h inherit other]
      simp only [bind, Except.bind, hflattened, hvalidated]
  rw [analyze, analyze, hground]
  rfl

/-- A schema is accepted without supply just if it is accepted with it and no field of an object is
one of an interface, and then the models are the same. -/
theorem analyze_strict_iff (options : AnalysisOptions) (registry : Registry)
    (classes : List TypeName) (model : SchemaModel) :
    analyze { options with inheritInterfaceFields := false } registry classes = .ok model ↔
      analyze { options with inheritInterfaceFields := true } registry classes = .ok model ∧
        model.Unsupplied := by
  constructor
  · intro h
    obtain ⟨catalog, hcatalog, hanalysed⟩ := analysed_of_analyze h
    have hnone := hanalysed.unsupplied_of_strict rfl
    rw [analyze_of_unsupplied hcatalog hnone options classes true false]
    exact ⟨h, hanalysed.model_unsupplied hnone⟩
  · rintro ⟨h, hmodel⟩
    obtain ⟨catalog, hcatalog, hanalysed⟩ := analysed_of_analyze h
    have hnone := hanalysed.unsupplied_of_model rfl hmodel
    rwa [analyze_of_unsupplied hcatalog hnone options classes false true]

-- Cats of the kennel get fields from their interface, so that it is not accepted without supply.
example : (analyze { inheritInterfaceFields := false } Registry.kennel
    [.literal "Store"]).toOption.isNone = true := by
  decide +kernel

end Schemata
