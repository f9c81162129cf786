import Schemata.GraphQL.Definition
import Schemata.Proofs.Closure

namespace Schemata

def ModelKind.all : List ModelKind := [.scalar, .enum, .input, .interface, .object, .union]

def TypeSystem.namesOf (types : TypeSystem) : ModelKind → List String
  | .object => Table.keys types.objects
  | .interface => Table.keys types.interfaces
  | .input => Table.keys types.inputs
  | .union => Table.keys types.unions
  | .scalar => Table.keys types.scalars
  | .enum => Table.keys types.enums

theorem TypeSystem.typeNames_eq (types : TypeSystem) :
    types.typeNames = ModelKind.all.flatMap types.namesOf := by
  simp [typeNames, ModelKind.all, namesOf]

/-- The names of all types of a model, its roots last. -/
def SchemaModel.allNames (model : SchemaModel) : List String :=
  model.typeNames ++ model.query.name :: (model.mutation.map RootType.name).toList

theorem SchemaModel.keys_registrations (model : SchemaModel) :
    Table.keys (GraphQL.registrations model) = model.allNames := by
  simp only [GraphQL.registrations, allNames, TypeSystem.typeNames, Table.keys_append,
    Table.keys_map, List.append_assoc]
  cases model.mutation <;> rfl

namespace Analysed

variable {options : AnalysisOptions} {classes : List TypeName} {catalog : Catalog}
  {model : SchemaModel}

theorem namesOf_nodup (h : Analysed options classes catalog model) (kind : ModelKind) :
    (model.namesOf kind).Nodup := by
  cases kind with
  | object => rw [TypeSystem.namesOf, h.objects, Table.keys_map]; exact h.named.typesOfKind_nodup _
  | interface =>
    rw [TypeSystem.namesOf, h.interfaces, Table.keys_map]; exact h.named.typesOfKind_nodup _
  | input => rw [TypeSystem.namesOf, h.inputs, Table.keys_map]; exact h.named.typesOfKind_nodup _
  | union => rw [TypeSystem.namesOf, h.unions, Table.keys_map]; exact h.named.unions_nodup
  | scalar => rw [TypeSystem.namesOf, h.scalars, Table.keys_map]; exact h.named.scalars_nodup
  | enum => rw [TypeSystem.namesOf, h.enums, Table.keys_map]; exact h.named.enums_nodup

/-- A name listed under a kind is one of the catalog, where it stands for something listed so. -/
theorem declared_of_mem_namesOf (h : Analysed options classes catalog model) {kind : ModelKind}
    {name : String} (hm : name ∈ model.namesOf kind) :
    name ∈ catalog.names ∧ ∃ declared, catalog.kindOf name = some declared ∧
      declared.listed? = some kind := by
  have htype (type : TypeKind) (hm : name ∈ Table.keys (catalog.typesOfKind type)) :
      name ∈ catalog.names ∧ catalog.kindOf name = some (.declared type) := by
    obtain ⟨entry, hentry, rfl⟩ := h.named.mem_typesOfKind.mp hm
    exact ⟨List.mem_append_left _ (Table.mem_keys_of_get? hentry), h.named.kindOf_of_get? hentry⟩
  cases kind with
  | object =>
    rw [TypeSystem.namesOf, h.objects, Table.keys_map] at hm
    exact ⟨(htype .object hm).1, _, (htype .object hm).2, rfl⟩
  | interface =>
    rw [TypeSystem.namesOf, h.interfaces, Table.keys_map] at hm
    exact ⟨(htype .interface hm).1, _, (htype .interface hm).2, rfl⟩
  | input =>
    rw [TypeSystem.namesOf, h.inputs, Table.keys_map] at hm
    exact ⟨(htype .input hm).1, _, (htype .input hm).2, rfl⟩
  | union =>
    rw [TypeSystem.namesOf, h.unions, Table.keys_map] at hm
    exact ⟨by simp [Catalog.names, hm], _, h.named.kindOf_of_union hm, rfl⟩
  | scalar =>
    rw [TypeSystem.namesOf, h.scalars, Table.keys_map] at hm
    exact ⟨by simp [Catalog.names, hm], _, Catalog.WellNamed.kindOf_of_scalar hm, rfl⟩
  | enum =>
    rw [TypeSystem.namesOf, h.enums, Table.keys_map] at hm
    exact ⟨by simp [Catalog.names, hm], _, h.named.kindOf_of_enum hm, rfl⟩

/-- A name stands for one thing, which is listed under one kind. -/
theorem kind_of_mem_namesOf (h : Analysed options classes catalog model) {kind other : ModelKind}
    {name : String} (hm : name ∈ model.namesOf kind) (hm' : name ∈ model.namesOf other) :
    kind = other := by
  obtain ⟨-, declared, hdeclared, hkind⟩ := h.declared_of_mem_namesOf hm
  obtain ⟨-, declared', hdeclared', hkind'⟩ := h.declared_of_mem_namesOf hm'
  obtain rfl := Option.some.inj (hdeclared.symm.trans hdeclared')
  exact Option.some.inj (hkind.symm.trans hkind')

theorem typeNames_nodup (h : Analysed options classes catalog model) : model.typeNames.Nodup := by
  rw [TypeSystem.typeNames_eq, List.nodup_flatMap]
  refine ⟨fun kind _ => h.namesOf_nodup kind, ?_⟩
  have hkinds : ModelKind.all.Nodup := by decide
  exact hkinds.imp fun hne name hm hm' => hne (h.kind_of_mem_namesOf hm hm')

theorem declared_of_mem_typeNames (h : Analysed options classes catalog model) {name : String}
    (hm : name ∈ model.typeNames) :
    isBuiltinScalar name = false ∧ ∃ declared, catalog.kindOf name = some declared := by
  rw [TypeSystem.typeNames_eq, List.mem_flatMap] at hm
  obtain ⟨kind, -, hm⟩ := hm
  obtain ⟨hname, declared, hdeclared, -⟩ := h.declared_of_mem_namesOf hm
  exact ⟨h.named.not_builtin name hname, declared, hdeclared⟩

/-- The root names have been looked up in the catalog and not been found. -/
theorem kindOf_rootName (h : Analysed options classes catalog model) (operation : Operation) :
    catalog.kindOf (Roots.rootName options operation) = none := by
  have hrooted := h.rooted
  simp only [PlainRoots.problems, List.append_eq_nil_iff] at hrooted
  obtain ⟨hquery, hmutation, -⟩ := hrooted
  have hfree (name : String) (hnone : PlainRoots.nameProblems catalog name = []) :
      catalog.kindOf name = none := by
    cases hkind : catalog.kindOf name with
    | none => rfl
    | some kind => simp [PlainRoots.nameProblems, hkind] at hnone
  cases operation with
  | query => exact hfree _ hquery
  | mutation => exact hfree _ hmutation

theorem rootName_notMem (h : Analysed options classes catalog model) (operation : Operation) :
    Roots.rootName options operation ∉ model.typeNames := by
  intro hm
  obtain ⟨-, declared, hdeclared⟩ := h.declared_of_mem_typeNames hm
  rw [h.kindOf_rootName] at hdeclared
  cases hdeclared

theorem rootName_not_builtin (h : Analysed options classes catalog model) (operation : Operation) :
    isBuiltinScalar (Roots.rootName options operation) = false := by
  rw [← Bool.not_eq_true]
  intro hbuiltin
  have hkind := h.kindOf_rootName operation
  rw [Catalog.kindOf_of_builtin hbuiltin] at hkind
  cases hkind

theorem mutation_name (h : Analysed options classes catalog model) {root : RootType}
    (hroot : model.mutation = some root) : root.name = options.mutationType := by
  rw [h.mutation] at hroot
  split at hroot
  next => cases hroot
  next =>
    obtain rfl := Option.some.inj hroot
    rfl

theorem query_name (h : Analysed options classes catalog model) :
    model.query.name = options.queryType := by
  rw [h.query]

theorem allNames_not_builtin (h : Analysed options classes catalog model) :
    ∀ name ∈ model.allNames, isBuiltinScalar name = false := by
  intro name hm
  simp only [SchemaModel.allNames, List.mem_append, List.mem_cons, Option.mem_toList,
    Option.map_eq_some_iff] at hm
  rcases hm with hm | rfl | ⟨root, hroot, rfl⟩
  · exact (h.declared_of_mem_typeNames hm).1
  · rw [h.query_name]
    exact h.rootName_not_builtin .query
  · rw [h.mutation_name hroot]
    exact h.rootName_not_builtin .mutation

/-- The roots are all that can clash. -/
theorem allNames_nodup_iff (h : Analysed options classes catalog model) :
    model.allNames.Nodup ↔ model.mutation = none ∨ options.queryType ≠ options.mutationType := by
  have hroots : ∀ name ∈ model.typeNames,
      ∀ root ∈ options.queryType :: (model.mutation.map RootType.name).toList, name ≠ root := by
    rintro name hname root hroot rfl
    rcases List.mem_cons.mp hroot with rfl | hroot
    · exact h.rootName_notMem .query hname
    · obtain ⟨type, htype, rfl⟩ := Option.map_eq_some_iff.mp (Option.mem_toList.mp hroot)
      rw [h.mutation_name htype] at hname
      exact h.rootName_notMem .mutation hname
  rw [SchemaModel.allNames, List.nodup_append, h.query_name, and_iff_right h.typeNames_nodup,
    and_iff_left hroots]
  cases hroot : model.mutation with
  | none => simp
  | some root => simp [h.mutation_name hroot]

end Analysed

/-- The names of a model are distinct and not built in, apart from the two roots: they are only kept
apart when there is no mutation root or the options name them differently. Where they are distinct
nothing is lost of what is served. -/
theorem analyze_names {options : AnalysisOptions} {registry : Registry} {classes : List TypeName}
    {model : SchemaModel} (h : analyze options registry classes = .ok model) :
    model.typeNames.Nodup ∧ (∀ name ∈ model.allNames, isBuiltinScalar name = false) ∧
      model.query.name ∉ model.typeNames ∧
      (∀ root, model.mutation = some root → root.name ∉ model.typeNames) ∧
      (model.allNames.Nodup ↔ model.mutation = none ∨ options.queryType ≠ options.mutationType) ∧
      (model.allNames.Nodup →
        GraphQL.Definitions.ofModel model = GraphQL.registrations model) := by
  obtain ⟨catalog, -, hanalysed⟩ := analysed_of_analyze h
  refine ⟨hanalysed.typeNames_nodup, hanalysed.allNames_not_builtin, ?_, ?_,
    hanalysed.allNames_nodup_iff, ?_⟩
  · rw [hanalysed.query_name]
    exact hanalysed.rootName_notMem .query
  · intro root hroot
    rw [hanalysed.mutation_name hroot]
    exact hanalysed.rootName_notMem .mutation
  · intro hn
    rw [← SchemaModel.keys_registrations] at hn
    exact Table.insertAll_nil hn

theorem analyze_names_nursery :
    ∃ model, analyze {} Registry.nursery [.literal "Store"] = .ok model ∧
      model.allNames = ["Date", "Weight", "Coat", "Node", "Animal", "Puppy", "Kitten", "Dog", "Cat",
        "Pet", "Query"] ∧
      (model.allNames.Nodup ↔ model.mutation = none ∨ "Query" ≠ "Mutation") := by
  have hrun : (analyze {} Registry.nursery [.literal "Store"]).toOption.any (fun model =>
      decide (model.allNames = ["Date", "Weight", "Coat", "Node", "Animal", "Puppy", "Kitten",
        "Dog", "Cat", "Pet", "Query"])) = true := by
    decide +kernel
  obtain ⟨model, hmodel, hnames⟩ := exists_ok_of_any hrun
  obtain ⟨-, -, -, -, hnodup, -⟩ := analyze_names hmodel
  exact ⟨model, hmodel, of_decide_eq_true hnames, hnodup⟩

def Registry.relay : Registry :=
  { resolvers :=
      [(.literal "Relay", ⟨.query, .new "ping" (.named (.literal "String"))⟩),
        (.literal "Relay", ⟨.mutation, .new "send" (.named (.literal "Int"))⟩)] }

/-- Options that name both roots alike pass analysis, and the query root is lost. -/
theorem analyze_same_roots :
    ∃ model, analyze { queryType := "Root", mutationType := "Root" } Registry.relay
        [.literal "Relay"] = .ok model ∧
      model.allNames = ["Root", "Root"] ∧ ¬model.allNames.Nodup ∧
      (GraphQL.Definitions.ofModel model).map (fun definition =>
          (definition.1, definition.2.linkFields.map GraphQL.FieldDef.name)) =
        [("Root", ["send"])] := by
  have hrun : (analyze { queryType := "Root", mutationType := "Root" } Registry.relay
      [.literal "Relay"]).toOption.any (fun model =>
        decide (model.allNames = ["Root", "Root"]) &&
          decide ((GraphQL.Definitions.ofModel model).map (fun definition =>
            (definition.1, definition.2.linkFields.map GraphQL.FieldDef.name)) =
              [("Root", ["send"])])) = true := by
    decide +kernel
  obtain ⟨model, hmodel, hfacts⟩ := exists_ok_of_any hrun
  simp only [Bool.and_eq_true, decide_eq_true_eq] at hfacts
  refine ⟨model, hmodel, hfacts.1, ?_, hfacts.2⟩
  rw [hfacts.1]
  decide

end Schemata
