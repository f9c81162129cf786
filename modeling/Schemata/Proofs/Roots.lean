import Schemata.Proofs.Representation

namespace Schemata

def Registry.requested (registry : Registry) (classes : List TypeName) :
    List (TypeName × ResolverMethod) :=
  registry.resolvers.filter fun resolver => decide
    (resolver.1.resolve registry.elementNames ∈ classes.map (·.resolve registry.elementNames))

def Registry.offered (registry : Registry) (classes : List TypeName) (operation : Operation) :
    List (TypeName × ResolverMethod) :=
  (registry.requested classes).filter fun resolver => decide (resolver.2.operation = operation)

/-- A root with one field for each of the methods, in their order. -/
structure RootType.Offers (names : ElementNames) (root : RootType)
    (methods : List (TypeName × ResolverMethod)) : Prop where
  fields : List.Forall₂ (fun (field : ModelField) (resolver : TypeName × ResolverMethod) =>
    field.Carries names ⟨resolver.1.resolve names, resolver.2.field⟩) root.fields methods
  distinct : (root.fields.map ModelField.name).Nodup

/-- The requested methods are at the roots of a model, and nothing else is. -/
structure SchemaModel.Offers (registry : Registry) (classes : List TypeName)
    (model : SchemaModel) : Prop where
  query : model.query.Offers registry.elementNames (registry.offered classes .query)
  mutation_iff : model.mutation.isSome = true ↔ registry.offered classes .mutation ≠ []
  mutation : ∀ root, model.mutation = some root →
    root.Offers registry.elementNames (registry.offered classes .mutation)

theorem Linking.foldProblems_concat {α β : Type} (next : β → α → β) (found : β → α → List Problem)
    (state : β) (items : List α) (item : α) :
    foldProblems next found state (items ++ [item]) =
      foldProblems next found state items ++ found (items.foldl next state) item := by
  induction items generalizing state with
  | nil => exact List.append_nil _
  | cons first rest ih =>
    rw [List.cons_append, foldProblems, foldProblems, ih, List.append_assoc, List.foldl_cons]

def RootDraft.fields (draft : RootDraft) : Operation → List ModelField
  | .query => draft.query
  | .mutation => draft.mutation

namespace PlainRoots

variable {options : AnalysisOptions} {catalog : Catalog} {effective : Table FieldSet}

def place (entry : ResolverEntry) : Operation × String :=
  (entry.method.operation, entry.method.field.name)

/-- A draft of just these methods, with none of which anything is wrong. -/
structure Lists (options : AnalysisOptions) (catalog : Catalog) (effective : Table FieldSet)
    (draft : RootDraft) (methods : List ResolverEntry) : Prop where
  fields : ∀ operation, draft.fields operation =
    (methods.filter fun method => decide (method.method.operation = operation)).filterMap
      (rootField options catalog effective)
  places : draft.offers.map Prod.fst = methods.map place
  distinct : (methods.map place).Nodup
  sound : ∀ method ∈ methods, PlainLinking.fieldProblems catalog effective
    (Roots.rootName options method.method.operation) method.method.field = []

theorem offeredBy?_eq_none_iff {draft : RootDraft} {operation : Operation} {field : String} :
    Roots.offeredBy? draft operation field = none ↔
      (operation, field) ∉ draft.offers.map Prod.fst := by
  rw [Roots.offeredBy?, Option.map_eq_none_iff, List.find?_eq_none, List.mem_map]
  constructor
  · rintro h ⟨offer, hoffer, he⟩
    exact h offer hoffer (decide_eq_true he)
  · intro h offer hoffer he
    exact h ⟨offer, hoffer, of_decide_eq_true he⟩

theorem methodProblems_eq_nil_iff {draft : RootDraft} {entry : ResolverEntry} :
    methodProblems options catalog effective draft entry = [] ↔
      place entry ∉ draft.offers.map Prod.fst ∧
        PlainLinking.fieldProblems catalog effective
          (Roots.rootName options entry.method.operation) entry.method.field = [] := by
  rw [place, ← offeredBy?_eq_none_iff, methodProblems]
  cases Roots.offeredBy? draft entry.method.operation entry.method.field.name <;> simp

theorem fields_addField (draft : RootDraft) (operation : Operation) (field : ModelField)
    (other : Operation) :
    (Roots.addField draft operation field).fields other =
      draft.fields other ++ if operation = other then [field] else [] := by
  cases operation <;> cases other <;> simp [Roots.addField, RootDraft.fields]

/-- A method with which nothing is wrong becomes a root field. -/
theorem exists_rootField {entry : ResolverEntry}
    (h : PlainLinking.fieldProblems catalog effective
      (Roots.rootName options entry.method.operation) entry.method.field = []) :
    ∃ field, rootField options catalog effective entry = some field ∧
      field.Carries catalog.elements ⟨entry.resolverClass, entry.method.field⟩ :=
  PlainLinking.linkField_carries _ h

section Step

variable {draft : RootDraft} {entry : ResolverEntry} {field : ModelField}
  (hplace : place entry ∉ draft.offers.map Prod.fst)
  (hfield : rootField options catalog effective entry = some field)

include hplace hfield

theorem addMethod_of_fine :
    addMethod options catalog effective draft entry =
      Roots.addField { draft with offers := draft.offers ++ [(place entry, entry.resolverClass)] }
        entry.method.operation field := by
  simp only [addMethod, offeredBy?_eq_none_iff.mpr hplace, hfield, place]

theorem fields_addMethod (operation : Operation) :
    (addMethod options catalog effective draft entry).fields operation =
      draft.fields operation ++ if entry.method.operation = operation then [field] else [] := by
  rw [addMethod_of_fine hplace hfield, fields_addField]
  cases operation <;> rfl

theorem offers_addMethod :
    (addMethod options catalog effective draft entry).offers =
      draft.offers ++ [(place entry, entry.resolverClass)] := by
  rw [addMethod_of_fine hplace hfield]
  cases entry.method.operation <;> rfl

end Step

/-- Drafting without problems takes up each method in its turn. -/
theorem lists_foldl {methods : List ResolverEntry}
    (h : Linking.foldProblems (addMethod options catalog effective)
      (methodProblems options catalog effective) {} methods = []) :
    Lists options catalog effective (methods.foldl (addMethod options catalog effective) {})
      methods := by
  induction methods using List.reverseRecOn with
  | nil => exact ⟨fun operation => by cases operation <;> rfl, rfl, List.nodup_nil, by simp⟩
  | append_singleton methods method ih =>
    rw [Linking.foldProblems_concat, List.append_eq_nil_iff] at h
    have hlists := ih h.1
    obtain ⟨hplace, hsound⟩ := methodProblems_eq_nil_iff.mp h.2
    obtain ⟨field, hfield, -⟩ := exists_rootField hsound
    have hnew : place method ∉ methods.map place := by rwa [← hlists.places]
    rw [List.foldl_concat]
    refine ⟨fun operation => ?_, ?_, ?_, ?_⟩
    · rw [fields_addMethod hplace hfield, hlists.fields, List.filter_append, List.filterMap_append]
      by_cases ho : method.method.operation = operation <;> simp [ho, hfield]
    · rw [offers_addMethod hplace hfield, List.map_append, List.map_append, hlists.places]
      rfl
    · rw [List.map_append, List.map_singleton, ← List.concat_eq_append]
      exact hlists.distinct.concat hnew
    · rw [List.forall_mem_append, List.forall_mem_singleton]
      exact ⟨hlists.sound, hsound⟩

namespace Lists

variable {draft : RootDraft} {methods : List ResolverEntry}
  (h : Lists options catalog effective draft methods) (operation : Operation)

include h

theorem carries :
    List.Forall₂ (fun (field : ModelField) (entry : ResolverEntry) =>
        field.Carries catalog.elements ⟨entry.resolverClass, entry.method.field⟩)
      (draft.fields operation)
      (methods.filter fun entry => decide (entry.method.operation = operation)) := by
  rw [h.fields]
  exact forall₂_filterMap fun entry hentry =>
    exists_rootField (h.sound entry (List.mem_of_mem_filter hentry))

theorem fieldNames_nodup : ((draft.fields operation).map ModelField.name).Nodup := by
  have hname : ∀ (field : ModelField) (entry : ResolverEntry),
      field.Carries catalog.elements ⟨entry.resolverClass, entry.method.field⟩ →
        field.name = entry.method.field.name := fun _ _ hcarries => hcarries.name
  rw [map_eq_of_forall₂ hname (h.carries operation)]
  -- Of one operation, so that two places differ in the name.
  have hplaces : ((methods.filter fun entry => decide (entry.method.operation = operation)).map
      fun entry => entry.method.field.name).map (Prod.mk operation) =
        (methods.filter fun entry => decide (entry.method.operation = operation)).map place := by
    rw [List.map_map]
    refine List.map_congr_left fun entry hentry => ?_
    rw [Function.comp_apply, place, of_decide_eq_true (List.mem_filter.mp hentry).2]
  refine List.Nodup.of_map (Prod.mk operation) ?_
  rw [hplaces]
  exact h.distinct.sublist (List.filter_sublist.map place)

end Lists

end PlainRoots

def Registry.resolverEntry (registry : Registry) (resolver : TypeName × ResolverMethod) :
    ResolverEntry :=
  ⟨resolver.1.resolve registry.elementNames, resolver.2⟩

theorem PlainRoots.mem_requestedClasses {catalog : Catalog} {classes : List TypeName}
    {name : String} :
    name ∈ Roots.requestedClasses catalog classes ↔
      name ∈ classes.map (·.resolve catalog.elements) := by
  simp only [Roots.requestedClasses, mem_mergeNames, List.not_mem_nil, false_or]

theorem Registry.requestedMethods_eq (registry : Registry) (classes : List TypeName) :
    PlainRoots.requestedMethods registry.settledCatalog classes =
      (registry.requested classes).map registry.resolverEntry := by
  simp only [PlainRoots.requestedMethods, PlainRoots.mem_requestedClasses]
  exact List.filter_map

theorem RootType.offers_of_lists {options : AnalysisOptions} {registry : Registry}
    {effective : Table FieldSet} {draft : RootDraft} {classes : List TypeName}
    (h : PlainRoots.Lists options registry.settledCatalog effective draft
      ((registry.requested classes).map registry.resolverEntry))
    (name : String) (operation : Operation) :
    RootType.Offers registry.elementNames ⟨name, draft.fields operation⟩
      (registry.offered classes operation) := by
  refine ⟨?_, h.fieldNames_nodup operation⟩
  have hcarries := h.carries operation
  rw [List.filter_map, List.forall₂_map_right_iff] at hcarries
  exact hcarries

/-- The draft of an analysis that succeeds lists the requested methods. -/
theorem Analysed.lists {options : AnalysisOptions} {classes : List TypeName} {catalog : Catalog}
    {model : SchemaModel} (h : Analysed options classes catalog model) :
    PlainRoots.Lists options catalog (catalog.finalFields options)
      (PlainRoots.draft options catalog (catalog.finalFields options) classes)
      (PlainRoots.requestedMethods catalog classes) := by
  have hrooted := h.rooted
  simp only [PlainRoots.problems, List.append_eq_nil_iff] at hrooted
  exact PlainRoots.lists_foldl hrooted.2.2.2.1

theorem isSome_ite_isEmpty {α β : Type} {items : List α} {value : β} :
    (if items.isEmpty then none else some value).isSome = true ↔ items ≠ [] := by
  cases items <;> simp

/-- The roots of a model offer what was requested of the registry. -/
theorem SchemaModel.offers_of_analyze {options : AnalysisOptions} {registry : Registry}
    {classes : List TypeName} {model : SchemaModel}
    (h : analyze options registry classes = .ok model) : model.Offers registry classes := by
  obtain ⟨catalog, hcatalog, hanalysed⟩ := analysed_of_analyze h
  obtain ⟨-, rfl⟩ := Catalog.ofRegistry_eq_ok_iff.mp hcatalog
  have hlists := hanalysed.lists
  rw [registry.requestedMethods_eq] at hlists
  have hoffers (name : String) (operation : Operation) :=
    RootType.offers_of_lists hlists name operation
  refine
    { query := by rw [hanalysed.query]; exact hoffers _ .query
      mutation_iff := ?_
      mutation := ?_ }
  · have hlength := (hoffers options.mutationType .mutation).fields.length_eq
    rw [hanalysed.mutation, ← List.length_pos_iff, ← hlength, List.length_pos_iff]
    exact isSome_ite_isEmpty
  · intro root hroot
    rw [hanalysed.mutation] at hroot
    split at hroot
    next => cases hroot
    next =>
      obtain rfl := Option.some.inj hroot
      exact hoffers _ .mutation

end Schemata
