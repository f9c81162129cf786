import Schemata.Proofs.Lookup
import Schemata.Proofs.Representation

namespace Schemata

/-- Two registries that differ only in the order of their declarations and of their extension
edges. -/
structure Registry.Reordered (registry other : Registry) : Prop where
  types : registry.types.Perm other.types
  scalars : registry.scalars.Perm other.scalars
  enums : registry.enums.Perm other.enums
  unions : registry.unions.Perm other.unions
  extensions : registry.extensions.Perm other.extensions
  fields : registry.fields = other.fields
  implementations : registry.implementations = other.implementations
  resolvers : registry.resolvers = other.resolvers

def Registry.reverse (registry : Registry) : Registry :=
  { registry with
    types := registry.types.reverse
    scalars := registry.scalars.reverse
    enums := registry.enums.reverse
    unions := registry.unions.reverse
    extensions := registry.extensions.reverse }

theorem Registry.reordered_reverse (registry : Registry) : registry.Reordered registry.reverse :=
  { types := (List.reverse_perm _).symm
    scalars := (List.reverse_perm _).symm
    enums := (List.reverse_perm _).symm
    unions := (List.reverse_perm _).symm
    extensions := (List.reverse_perm _).symm
    fields := rfl
    implementations := rfl
    resolvers := rfl }

/-- Two interfaces that differ only in the order of their implementers. -/
structure InterfaceType.Alike (type other : InterfaceType) : Prop where
  implementers : type.implementers.Perm other.implementers
  rest : { type with implementers := other.implementers } = other

/-- Two models that say the same of every name. -/
structure SchemaModel.Alike (model other : SchemaModel) : Prop where
  objects : ∀ name, Table.get? model.objects name = Table.get? other.objects name
  interfaces : ∀ name, Option.Rel InterfaceType.Alike (Table.get? model.interfaces name)
    (Table.get? other.interfaces name)
  inputs : ∀ name, Table.get? model.inputs name = Table.get? other.inputs name
  argumentSets : ∀ name, Table.get? model.argumentSets name = Table.get? other.argumentSets name
  unions : ∀ name, Table.get? model.unions name = Table.get? other.unions name
  scalars : ∀ name, Table.get? model.scalars name = Table.get? other.scalars name
  enums : ∀ name, Table.get? model.enums name = Table.get? other.enums name
  elements : ∀ name, TypeName.resolve model.elements name = TypeName.resolve other.elements name
  query : model.query = other.query
  mutation : model.mutation = other.mutation

theorem head?_eq_of_perm {α : Type} {items other : List α} (h : items.Perm other)
    (hall : ∀ item ∈ items, ∀ another ∈ items, item = another) : items.head? = other.head? := by
  cases items with
  | nil => rw [h.nil_eq]
  | cons item rest =>
    cases other with
    | nil => exact absurd h.eq_nil (List.cons_ne_nil _ _)
    | cons another others =>
      have hm : another ∈ item :: rest := h.mem_iff.mpr List.mem_cons_self
      rw [List.head?_cons, List.head?_cons, hall item List.mem_cons_self another hm]

namespace Registry

variable {registry other : Registry}

def namedElements (registry : Registry) : Table String :=
  registry.types.filterMap fun type => type.element.map fun element => (element.path, type.name)

theorem elementNames_eq (registry : Registry) :
    registry.elementNames = Table.insertAll [] registry.namedElements := by
  rw [elementNames, Table.insertAll, namedElements, List.foldl_filterMap]
  congr
  funext names type
  cases type.element <;> rfl

theorem nodup_keys_namedElements
    (hn : (registry.types.filterMap TypeDeclaration.element).Nodup) :
    (Table.keys registry.namedElements).Nodup := by
  have hkeys : Table.keys registry.namedElements =
      (registry.types.filterMap TypeDeclaration.element).map Element.path := by
    simp only [Table.keys, namedElements, List.map_filterMap, Option.map_map, Function.comp_def]
  rw [hkeys]
  exact hn.map fun _ _ => Element.mk.injEq .. |>.mpr

namespace Reordered

variable (h : registry.Reordered other)

include h

theorem symm : other.Reordered registry :=
  { types := h.types.symm
    scalars := h.scalars.symm
    enums := h.enums.symm
    unions := h.unions.symm
    extensions := h.extensions.symm
    fields := h.fields.symm
    implementations := h.implementations.symm
    resolvers := h.resolvers.symm }

/-- Where no element has two declarations, it does not matter which of them comes last. -/
theorem resolve (hn : (registry.types.filterMap TypeDeclaration.element).Nodup) :
    TypeName.resolve registry.elementNames = TypeName.resolve other.elementNames := by
  have hnodup := nodup_keys_namedElements hn
  have hperm : registry.namedElements.Perm other.namedElements := h.types.filterMap _
  have hget : Table.get? registry.elementNames = Table.get? other.elementNames := by
    rw [elementNames_eq, elementNames_eq, Table.insertAll_nil hnodup,
      Table.insertAll_nil ((hperm.map Prod.fst).nodup_iff.mp hnodup), Table.get?_perm hnodup hperm]
  funext name
  induction name with
  | literal text => rfl
  | element host => rw [TypeName.resolve, TypeName.resolve, ElementNames.nameOf,
      ElementNames.nameOf, hget]
  | deferred cell thunk ih => rw [TypeName.resolve, TypeName.resolve, ih]

theorem declarations : registry.declarations.Perm other.declarations :=
  (h.types.map _).append ((h.scalars.map _).append ((h.enums.map _).append (h.unions.map _)))

section

variable (hresolve : TypeName.resolve registry.elementNames = TypeName.resolve other.elementNames)

include hresolve

omit h in
theorem targets : registry.targets = other.targets := by
  funext edges name
  rw [Registry.targets, Registry.targets, hresolve]

theorem parents (type : TypeDeclaration) : (registry.parents type).Perm (other.parents type) := by
  rw [Registry.parents, Registry.parents, hresolve]
  refine .append_left _ ?_
  rw [targets hresolve]
  exact (h.extensions.filter _).map _

theorem declares_iff {name : TypeName} : registry.Declares name ↔ other.Declares name := by
  rw [Declares, Declares, hresolve, (h.types.map _).mem_iff]

theorem accepted (ha : registry.Accepted) : other.Accepted := by
  have htypes (type : TypeDeclaration) : type ∈ other.types → type ∈ registry.types :=
    h.types.mem_iff.mpr
  refine
    { nodup := (h.declarations.map _).nodup_iff.mp ha.nodup
      not_builtin := fun declaration hd => ha.not_builtin _ (h.declarations.mem_iff.mpr hd)
      implementing := ?_
      parent := ?_
      owners := ?_
      extending := ?_
      implementers := ?_ }
  · intro type htype
    rw [← targets hresolve, ← h.implementations]
    exact ha.implementing type (htypes type htype)
  · intro type htype parent hparent another hanother
    have hparents := h.parents hresolve type
    exact ha.parent type (htypes type htype) parent (hparents.mem_iff.mpr hparent) another
      (hparents.mem_iff.mpr hanother)
  · intro late hlate
    rw [← h.fields] at hlate
    exact (h.declares_iff hresolve).mp (ha.owners late hlate)
  · intro edge hedge
    exact (h.declares_iff hresolve).mp (ha.extending edge (h.extensions.mem_iff.mpr hedge))
  · intro edge hedge
    rw [← h.implementations] at hedge
    exact (h.declares_iff hresolve).mp (ha.implementers edge hedge)

/-- The parents of a type agree, so whichever comes first is the parent. -/
theorem settledEntry (ha : registry.Accepted) {type : TypeDeclaration}
    (htype : type ∈ registry.types) : registry.settledEntry type = other.settledEntry type := by
  have hparent : (registry.parents type).head? = (other.parents type).head? :=
    head?_eq_of_perm (h.parents hresolve type) (ha.parent type htype)
  rw [Registry.settledEntry, Registry.settledEntry, hparent, targets hresolve, h.implementations,
    lateFields, lateFields, h.fields, hresolve, CatalogDraft.entryOf, CatalogDraft.entryOf,
    hresolve]

theorem settledCatalog (ha : registry.Accepted) :
    registry.settledCatalog.Alike other.settledCatalog := by
  obtain hn := (Catalog.ofRegistry_wellNamed (Catalog.ofRegistry_eq_ok_iff.mpr ⟨ha, rfl⟩))
  have htypes : registry.settledCatalog.types.Perm other.settledCatalog.types := by
    have hsame : (registry.types.map fun type => (type.name, registry.settledEntry type)) =
        registry.types.map fun type => (type.name, other.settledEntry type) :=
      List.map_congr_left fun type htype => by rw [h.settledEntry hresolve ha htype]
    rw [Registry.settledCatalog, hsame]
    exact h.types.map _
  have hscalars : registry.settledCatalog.scalars.Perm other.settledCatalog.scalars :=
    h.scalars.map _
  have henums : registry.settledCatalog.enums.Perm other.settledCatalog.enums := h.enums.map _
  have hunions : registry.settledCatalog.unions.Perm other.settledCatalog.unions := by
    have hentry : unionEntry registry.elementNames = unionEntry other.elementNames := by
      funext union
      rw [unionEntry, unionEntry, hresolve]
    rw [Registry.settledCatalog, declaredCatalog, hentry]
    exact h.unions.map _
  exact
    { resolve := hresolve
      types := Table.get?_perm hn.types_nodup htypes
      scalars := Table.get?_perm hn.scalars_nodup hscalars
      enums := Table.get?_perm hn.enums_nodup henums
      unions := Table.get?_perm hn.unions_nodup hunions
      count := htypes.length_eq
      resolvers := by rw [Registry.settledCatalog, Registry.settledCatalog, h.resolvers, hresolve] }

end

end Reordered

end Registry

namespace Catalog.Alike

variable {catalog other : Catalog} (h : catalog.Alike other) {options : AnalysisOptions}
  {classes : List TypeName}

include h

theorem exists_analyze_of_exists {registry registry' : Registry}
    (hcatalog : Catalog.ofRegistry registry = .ok catalog)
    (hother : Catalog.ofRegistry registry' = .ok other) {model : SchemaModel}
    (hmodel : analyze options registry classes = .ok model) :
    ∃ model, analyze options registry' classes = .ok model := by
  have hanalysed := analysed_of_catalog hmodel hcatalog
  have hnamed := hanalysed.named
  have hnamed' := Catalog.ofRegistry_wellNamed hother
  apply exists_analyze hother
  · exact h.lineages_iff.mp hanalysed.lineages
  · exact (h.fulfilled_iff hnamed hnamed' options).mp hanalysed.fulfilled
  · exact (h.linked_iff hnamed hnamed' options).mp hanalysed.linked
  · rw [← h.rootProblems (h.finalFields hnamed hnamed' options)]
    exact hanalysed.rooted

section Models

variable {model model' : SchemaModel} (hmodel : Analysed options classes catalog model)
  (hmodel' : Analysed options classes other model')

include hmodel hmodel'

theorem objects : Table.get? model.objects = Table.get? model'.objects := by
  have hfinal := h.finalFields hmodel.named hmodel'.named options
  have htype : PlainLinking.objectType catalog (catalog.finalFields options)
        (catalog.fulfilment options).relation =
      PlainLinking.objectType other (other.finalFields options)
        (other.fulfilment options).relation := by
    funext name entry
    rw [PlainLinking.objectType, PlainLinking.objectType, h.linkFields hfinal,
      h.relation_interfaces hmodel.named hmodel'.named]
  funext name
  rw [hmodel.objects, hmodel'.objects, hmodel.named.get?_typesOfKind_map,
    hmodel'.named.get?_typesOfKind_map, h.get?, htype]

theorem interfaces (name : String) :
    Option.Rel InterfaceType.Alike (Table.get? model.interfaces name)
      (Table.get? model'.interfaces name) := by
  have hfinal := h.finalFields hmodel.named hmodel'.named options
  have htype (entry : TypeEntry) : InterfaceType.Alike
      (PlainLinking.interfaceType catalog (catalog.finalFields options)
        (catalog.fulfilment options).relation name entry)
      (PlainLinking.interfaceType other (other.finalFields options)
        (other.fulfilment options).relation name entry) := by
    refine ⟨h.relation_implementers hmodel.named hmodel'.named options name, ?_⟩
    rw [PlainLinking.interfaceType, PlainLinking.interfaceType, h.linkFields hfinal,
      h.relation_ancestors hmodel.named hmodel'.named]
  rw [hmodel.interfaces, hmodel'.interfaces, hmodel.named.get?_typesOfKind_map,
    hmodel'.named.get?_typesOfKind_map, h.get?]
  cases (other.get? name).filter fun entry => decide (entry.kind = .interface) with
  | none => exact .none
  | some entry => exact .some (htype entry)

theorem inputs : Table.get? model.inputs = Table.get? model'.inputs := by
  have hfinal := h.finalFields hmodel.named hmodel'.named options
  funext name
  rw [hmodel.inputs, hmodel'.inputs, hmodel.named.get?_typesOfKind_map,
    hmodel'.named.get?_typesOfKind_map, h.get?, h.inputType hfinal]

theorem leaves : Table.get? model.unions = Table.get? model'.unions ∧
    Table.get? model.scalars = Table.get? model'.scalars ∧
    Table.get? model.enums = Table.get? model'.enums := by
  refine ⟨?_, ?_, ?_⟩
  · funext name
    rw [hmodel.unions, hmodel'.unions, Table.get?_map, Table.get?_map, h.unions]
  · funext name
    rw [hmodel.scalars, hmodel'.scalars, Table.get?_map, Table.get?_map, h.scalars]
  · funext name
    rw [hmodel.enums, hmodel'.enums, Table.get?_map, Table.get?_map, h.enums]

theorem roots : model.query = model'.query ∧ model.mutation = model'.mutation := by
  have hdraft := h.rootDraft (h.finalFields hmodel.named hmodel'.named options) options
  rw [hmodel.query, hmodel'.query, hmodel.mutation, hmodel'.mutation, hdraft]
  exact ⟨rfl, rfl⟩

end Models

end Catalog.Alike

theorem SchemaModel.alike_of_catalogs {options : AnalysisOptions} {classes : List TypeName}
    {registry registry' : Registry} {catalog other : Catalog} (h : catalog.Alike other)
    (hcatalog : Catalog.ofRegistry registry = .ok catalog)
    (hother : Catalog.ofRegistry registry' = .ok other) {model model' : SchemaModel}
    (hmodel : analyze options registry classes = .ok model)
    (hmodel' : analyze options registry' classes = .ok model') : model.Alike model' := by
  have hanalysed := analysed_of_catalog hmodel hcatalog
  have hanalysed' := analysed_of_catalog hmodel' hother
  obtain ⟨hunions, hscalars, henums⟩ := h.leaves hanalysed hanalysed'
  obtain ⟨hquery, hmutation⟩ := h.roots hanalysed hanalysed'
  refine
    { objects := fun name => congrFun (h.objects hanalysed hanalysed') name
      interfaces := h.interfaces hanalysed hanalysed'
      inputs := fun name => congrFun (h.inputs hanalysed hanalysed') name
      argumentSets := fun name => ?_
      unions := fun name => congrFun hunions name
      scalars := fun name => congrFun hscalars name
      enums := fun name => congrFun henums name
      elements := fun name => ?_
      query := hquery
      mutation := hmutation }
  · rw [get?_argumentSets hmodel hcatalog, get?_argumentSets hmodel' hother, h.kindOf,
      h.setArguments (h.finalFields hanalysed.named hanalysed'.named options)]
  · rw [hanalysed.elements, hanalysed'.elements, h.resolve]

namespace Registry.Reordered

variable {registry other : Registry} (h : registry.Reordered other)
  (hresolve : TypeName.resolve registry.elementNames = TypeName.resolve other.elementNames)

include h hresolve

theorem catalogs {catalog : Catalog} (hcatalog : Catalog.ofRegistry registry = .ok catalog) :
    ∃ reordered, Catalog.ofRegistry other = .ok reordered ∧ catalog.Alike reordered := by
  obtain ⟨haccepted, rfl⟩ := Catalog.ofRegistry_eq_ok_iff.mp hcatalog
  exact ⟨_, Catalog.ofRegistry_eq_ok_iff.mpr ⟨h.accepted hresolve haccepted, rfl⟩,
    h.settledCatalog hresolve haccepted⟩

theorem exists_analyze {options : AnalysisOptions} {classes : List TypeName} {model : SchemaModel}
    (hmodel : analyze options registry classes = .ok model) :
    ∃ model', analyze options other classes = .ok model' ∧ model.Alike model' := by
  obtain ⟨catalog, hcatalog, -⟩ := analysed_of_analyze hmodel
  obtain ⟨reordered, hother, halike⟩ := h.catalogs hresolve hcatalog
  obtain ⟨model', hmodel'⟩ := halike.exists_analyze_of_exists hcatalog hother hmodel
  exact ⟨model', hmodel', SchemaModel.alike_of_catalogs halike hcatalog hother hmodel hmodel'⟩

end Registry.Reordered

/-- Where no element has two declarations, the order of declarations and of extension edges does not
matter: it decides neither whether the analysis succeeds nor what the model says of a name. -/
theorem analyze_reordered {registry other : Registry} (h : registry.Reordered other)
    (hn : (registry.types.filterMap TypeDeclaration.element).Nodup) (options : AnalysisOptions)
    (classes : List TypeName) :
    ((∃ model, analyze options registry classes = .ok model) ↔
      ∃ model, analyze options other classes = .ok model) ∧
    ∀ model model', analyze options registry classes = .ok model →
      analyze options other classes = .ok model' → model.Alike model' := by
  have hresolve := h.resolve hn
  refine ⟨⟨?_, ?_⟩, ?_⟩
  · rintro ⟨model, hmodel⟩
    obtain ⟨model', hmodel', -⟩ := h.exists_analyze hresolve hmodel
    exact ⟨model', hmodel'⟩
  · rintro ⟨model, hmodel⟩
    obtain ⟨model', hmodel', -⟩ := h.symm.exists_analyze hresolve.symm hmodel
    exact ⟨model', hmodel'⟩
  · intro model model' hmodel hmodel'
    obtain ⟨found, hfound, halike⟩ := h.exists_analyze hresolve hmodel
    obtain rfl := Except.ok.inj (hfound.symm.trans hmodel')
    exact halike

def Registry.boarding : Registry :=
  { nursery with
    types :=
      nursery.types ++ [{ TypeDeclaration.forElement .object ⟨"home::Owner"⟩ with
        name := "Keeper"
        fields := [.new "pet" (.named (.literal "Pet"))] }]
    unions := nursery.unions ++
      [⟨"Resident", [.element ⟨"home::Owner"⟩, .literal "Cat"], none, none⟩] }

theorem analyze_reordered_boarding :
    Registry.boarding.Reordered Registry.boarding.reverse ∧
      (Registry.boarding.types.filterMap TypeDeclaration.element).Nodup ∧
      ∃ model model', analyze {} Registry.boarding [.literal "Store"] = .ok model ∧
        analyze {} Registry.boarding.reverse [.literal "Store"] = .ok model' ∧
        (Table.get? model.interfaces "Animal").map InterfaceType.implementers =
          some ["Puppy", "Kitten", "Dog", "Cat"] ∧
        (Table.get? model.unions "Resident").map UnionType.members = some ["Keeper", "Cat"] ∧
        model.Alike model' := by
  have hn : (Registry.boarding.types.filterMap TypeDeclaration.element).Nodup := by decide
  have hrun : (analyze {} Registry.boarding [.literal "Store"]).toOption.any (fun model =>
      decide ((Table.get? model.interfaces "Animal").map InterfaceType.implementers =
          some ["Puppy", "Kitten", "Dog", "Cat"]) &&
        decide ((Table.get? model.unions "Resident").map UnionType.members =
          some ["Keeper", "Cat"])) = true := by
    decide +kernel
  obtain ⟨model, hmodel, hfacts⟩ := exists_ok_of_any hrun
  simp only [Bool.and_eq_true, decide_eq_true_eq] at hfacts
  obtain ⟨hsame, halike⟩ := analyze_reordered Registry.boarding.reordered_reverse hn {}
    [.literal "Store"]
  obtain ⟨model', hmodel'⟩ := hsame.mp ⟨model, hmodel⟩
  exact ⟨Registry.boarding.reordered_reverse, hn, model, model', hmodel, hmodel', hfacts.1,
    hfacts.2, halike model model' hmodel hmodel'⟩

end Schemata
