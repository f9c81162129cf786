import Schemata.Proofs.Enlargement
import Schemata.Proofs.InterfaceRelation
import Schemata.Proofs.TypeNames

namespace Schemata

/-- The catalog with one type more, declared last. -/
def Catalog.withType (catalog : Catalog) (name : String) (entry : TypeEntry) : Catalog :=
  { catalog with types := catalog.types ++ [(name, entry)] }

def InterfaceType.withImplementer (type : InterfaceType) (object : String) : InterfaceType :=
  { type with implementers := type.implementers ++ [object] }

/-- What a type of this kind adds to the table of the types `listed`. -/
def TypeKind.entryAs {α : Type} (kind listed : TypeKind) (name : String) (value : α) : Table α :=
  if kind = listed then [(name, value)] else []

/-- `larger` lists one declared type more, with the derived interfaces if it is an object. These
have it as their last implementer, and nothing else has changed. -/
structure SchemaModel.Gains (declaration : TypeDeclaration) (derived : List String)
    (model larger : SchemaModel) : Prop where
  fresh : declaration.name ∉ model.typeNames ∧ declaration.name ∉ Table.keys model.argumentSets
  objects : ∃ object : ObjectType, object.interfaces = derived ∧
    larger.objects = model.objects ++ declaration.kind.entryAs .object declaration.name object
  interfaces : ∃ interface, larger.interfaces =
    (model.interfaces.map fun entry => (entry.1,
      if entry.1 ∈ derived then entry.2.withImplementer declaration.name else entry.2)) ++
    declaration.kind.entryAs .interface declaration.name interface
  inputs : ∃ input, larger.inputs =
    model.inputs ++ declaration.kind.entryAs .input declaration.name input
  argumentSets : ∃ arguments, ∀ name, Table.get? larger.argumentSets name =
    Table.get? (model.argumentSets ++
      declaration.kind.entryAs .argumentSet declaration.name arguments) name
  unions : larger.unions = model.unions
  scalars : larger.scalars = model.scalars
  enums : larger.enums = model.enums
  elements : larger.elements = model.elements
  query : larger.query = model.query
  mutation : larger.mutation = model.mutation

theorem TypeKind.get?_entryAs {α : Type} (kind listed : TypeKind) (name : String) (value : α)
    (other : String) :
    Table.get? (kind.entryAs listed name value) other =
      if kind = listed ∧ name = other then some value else none := by
  rw [entryAs]
  by_cases hkind : kind = listed <;> simp [hkind, Table.get?_cons]

namespace Catalog

variable {catalog : Catalog} {name : String} {entry : TypeEntry}

theorem get?_withType (other : String) :
    (catalog.withType name entry).get? other =
      (catalog.get? other).or (if name = other then some entry else none) :=
  Table.get?_append _ _ _

theorem typesOfKind_withType (kind : TypeKind) :
    (catalog.withType name entry).typesOfKind kind =
      catalog.typesOfKind kind ++ entry.kind.entryAs kind name entry := by
  rw [typesOfKind, withType, List.filter_append, typesOfKind, TypeKind.entryAs]
  by_cases hkind : entry.kind = kind <;> simp [hkind]

theorem kindOf_withType_of_ne {other : String} (hne : other ≠ name) :
    (catalog.withType name entry).kindOf other = catalog.kindOf other := by
  rw [kindOf, kindOf, get?_withType, if_neg (Ne.symm hne), Option.or_none]
  rfl

section

variable (h : (catalog.withType name entry).WellNamed)

include h

/-- A well-named catalog has no other use for the name. -/
theorem get?_eq_none_of_withType : catalog.get? name = none := by
  have hn := h.types_nodup
  rw [withType, Table.keys_append, List.nodup_append] at hn
  refine (Table.get?_eq_none_iff _ _).mpr fun hm => ?_
  exact hn.2.2 name hm name List.mem_cons_self rfl

theorem get?_withType_self : (catalog.withType name entry).get? name = some entry := by
  rw [get?_withType, get?_eq_none_of_withType h, if_pos rfl, Option.none_or]

theorem kindOf_eq_none_of_withType : catalog.kindOf name = none := by
  have hname := Table.mem_keys_of_get? (get?_withType_self h)
  have hbuiltin := h.not_builtin name (List.mem_append_left _ hname)
  obtain ⟨hscalar, henum, hunion⟩ := h.notMem_of_type hname
  rw [← Table.contains_eq_false_iff] at hscalar henum hunion
  rw [withType] at hscalar henum hunion
  rw [kindOf, get?_eq_none_of_withType h, hbuiltin, hscalar, henum, hunion]
  rfl

theorem within_withType : catalog.Within (catalog.withType name entry) where
  elements := rfl
  types other found hfound := by rw [get?_withType, hfound, Option.some_or]
  kinds other kind hkind := by
    have hne : other ≠ name := by
      rintro rfl
      rw [kindOf_eq_none_of_withType h] at hkind
      cases hkind
    rwa [kindOf_withType_of_ne hne]

end

/-- A table made from the types of a kind, where nothing changes for the old ones. -/
theorem map_typesOfKind_withType {β : Type} (hn : (Table.keys catalog.types).Nodup)
    {kind : TypeKind} {old new : String × TypeEntry → β}
    (hsame : ∀ other found, catalog.get? other = some found → found.kind = kind →
      new (other, found) = old (other, found)) :
    ((catalog.withType name entry).typesOfKind kind).map (fun type => (type.1, new type)) =
      (catalog.typesOfKind kind).map (fun type => (type.1, old type)) ++
        entry.kind.entryAs kind name (new (name, entry)) := by
  rw [typesOfKind_withType, List.map_append, TypeKind.entryAs, TypeKind.entryAs]
  congr 1
  · refine List.map_congr_left fun type htype => ?_
    obtain ⟨hmem, hkind⟩ := List.mem_filter.mp htype
    have hfound := Table.get?_of_mem hn hmem
    rw [hsame type.1 type.2 hfound (of_decide_eq_true hkind)]
  · split <;> rfl

end Catalog

namespace Registry

variable {registry : Registry} {declaration : TypeDeclaration}
  (hanonymous : declaration.element = none)

include hanonymous

theorem elementNames_register :
    (registry.register (.type declaration)).elementNames = registry.elementNames := by
  rw [elementNames, register, List.foldl_concat, hanonymous, elementNames]

theorem settledCatalog_register :
    (registry.register (.type declaration)).settledCatalog =
      registry.settledCatalog.withType declaration.name (registry.settledEntry declaration) := by
  have helements : (registry.register (.type declaration)).elementNames = registry.elementNames :=
    elementNames_register hanonymous
  have hentry (type : TypeDeclaration) :
      (registry.register (.type declaration)).settledEntry type = registry.settledEntry type := by
    simp only [settledEntry, parents, targets, lateFields, helements]
    rfl
  simp only [settledCatalog, declaredCatalog, Catalog.withType, helements, hentry]
  simp only [register, List.map_append, List.map_cons, List.map_nil]

end Registry

/-- The interfaces that validation records for an object; for other types there are none. -/
def Catalog.recordedInterfaces (catalog : Catalog) (options : AnalysisOptions) (name : String) :
    List String :=
  (Table.get? (catalog.fulfilment options).relation.interfaces name).getD []

namespace Analysed

section

variable {options : AnalysisOptions} {classes : List TypeName} {catalog : Catalog}
  {model : SchemaModel} (h : Analysed options classes catalog model)

include h

theorem mem_recordedInterfaces_iff {name : String} {entry : TypeEntry}
    (hentry : catalog.get? name = some entry) {interface : String} :
    interface ∈ catalog.recordedInterfaces options name ↔
      entry.kind = .object ∧ catalog.Derives name interface := by
  rw [Catalog.recordedInterfaces]
  by_cases hkind : entry.kind = .object
  · obtain ⟨interfaces, own, hsettled⟩ := h.exists_settled hentry hkind
    rw [hsettled.recorded, Option.getD_some, and_iff_right hkind]
    exact Catalog.mem_interfacesOf hsettled.derived interface
  · rw [Catalog.fulfilment, Fulfilment.run_interfaces _ _ _ h.named.types_nodup, Table.get?_filterMap,
      if_neg (h.named.notMem_typesOfKind hentry hkind)]
    simp [hkind]

end

section

variable {options : AnalysisOptions} {classes : List TypeName} {catalog : Catalog}
  {name : String} {entry : TypeEntry} {model larger : SchemaModel}
  (h : Analysed options classes catalog model)
  (hlarger : Analysed options classes (catalog.withType name entry) larger)

include h hlarger

theorem exists_objects_withType :
    ∃ object : ObjectType,
      object.interfaces = (catalog.withType name entry).recordedInterfaces options name ∧
        larger.objects = model.objects ++ entry.kind.entryAs .object name object := by
  rw [h.objects, hlarger.objects]
  refine ⟨_, rfl,
    Catalog.map_typesOfKind_withType h.named.types_nodup fun other found hfound hkind => ?_⟩
  exact (Catalog.within_withType hlarger.named).objectType h hlarger hfound hkind

theorem exists_inputs_withType :
    ∃ input, larger.inputs = model.inputs ++ entry.kind.entryAs .input name input := by
  rw [h.inputs, hlarger.inputs]
  refine ⟨_,
    Catalog.map_typesOfKind_withType h.named.types_nodup fun other found hfound hkind => ?_⟩
  exact (Catalog.within_withType hlarger.named).inputType h hlarger hfound hkind

/-- The added object is the last implementer of each of its interfaces. -/
theorem implementers_withType {interface : String} {old new : InterfaceType}
    (hold : (interface, old) ∈ model.interfaces) (hnew : (interface, new) ∈ larger.interfaces) :
    new.implementers = old.implementers ++
      if interface ∈ (catalog.withType name entry).recordedInterfaces options name then [name]
      else [] := by
  have hself := Catalog.get?_withType_self hlarger.named
  obtain ⟨object, hinterfaces, hobjects⟩ := exists_objects_withType h hlarger
  rw [h.implementers hold, hlarger.implementers hnew, hobjects, List.filter_append,
    List.map_append, ← hinterfaces]
  congr 1
  by_cases hm : interface ∈ object.interfaces
  · -- Only objects have interfaces.
    have hkind : entry.kind = .object := by
      rw [hinterfaces, hlarger.mem_recordedInterfaces_iff hself] at hm
      exact hm.1
    simp [TypeKind.entryAs, hkind, hm]
  · rw [if_neg hm, TypeKind.entryAs]
    split
    next => simp [hm]
    next => rfl

theorem exists_interfaces_withType :
    ∃ interface, larger.interfaces = (model.interfaces.map fun type => (type.1,
        if type.1 ∈ (catalog.withType name entry).recordedInterfaces options name then
          type.2.withImplementer name
        else type.2)) ++ entry.kind.entryAs .interface name interface := by
  have hwithin := Catalog.within_withType hlarger.named
  have himplementers {interface : String} {found : TypeEntry}
      (hfound : catalog.get? interface = some found) (hkind : found.kind = .interface) :=
    implementers_withType h hlarger
      (Table.mem_of_get? (h.get?_interfaces hfound hkind))
      (Table.mem_of_get? (hlarger.get?_interfaces (hwithin.types _ _ hfound) hkind))
  rw [h.interfaces, hlarger.interfaces, List.map_map]
  refine ⟨_,
    Catalog.map_typesOfKind_withType h.named.types_nodup fun other found hfound hkind => ?_⟩
  rw [hwithin.interfaceType h hlarger hfound hkind]
  have hnew := himplementers hfound hkind
  simp only [PlainLinking.interfaceType] at hnew ⊢
  rw [hnew]
  split
  next => rfl
  next => rw [List.append_nil]

theorem notMem_typeNames_of_withType : name ∉ model.typeNames := by
  intro hm
  obtain ⟨-, kind, hkind⟩ := h.declared_of_mem_typeNames hm
  rw [Catalog.kindOf_eq_none_of_withType hlarger.named] at hkind
  cases hkind

end

end Analysed

/-- Argument sets are listed in the order of their first use, so that they are compared by name. -/
theorem exists_argumentSets_withType {options : AnalysisOptions} {classes : List TypeName}
    {registry registry' : Registry} {catalog : Catalog} {name : String} {entry : TypeEntry}
    {model larger : SchemaModel} (hmodel : analyze options registry classes = .ok model)
    (hcatalog : Catalog.ofRegistry registry = .ok catalog)
    (hlarger : analyze options registry' classes = .ok larger)
    (hother : Catalog.ofRegistry registry' = .ok (catalog.withType name entry)) :
    ∃ arguments, ∀ set, Table.get? larger.argumentSets set =
      Table.get? (model.argumentSets ++ entry.kind.entryAs .argumentSet name arguments) set := by
  have hanalysed := analysed_of_catalog hmodel hcatalog
  have hanalysed' := analysed_of_catalog hlarger hother
  refine ⟨PlainLinking.setArguments (catalog.withType name entry)
    ((catalog.withType name entry).finalFields options) name, fun set => ?_⟩
  rw [Table.get?_append, get?_argumentSets hlarger hother, get?_argumentSets hmodel hcatalog,
    TypeKind.get?_entryAs]
  by_cases hname : set = name
  · subst hname
    rw [hanalysed'.named.kindOf_of_get? (Catalog.get?_withType_self hanalysed'.named),
      Catalog.kindOf_eq_none_of_withType hanalysed'.named]
    by_cases hkind : entry.kind = .argumentSet <;> simp [hkind]
  · have hother : ¬(entry.kind = .argumentSet ∧ name = set) := fun hself => hname hself.2.symm
    rw [Catalog.kindOf_withType_of_ne hname, if_neg hother, Option.or_none]
    split
    next hset =>
      rw [(Catalog.within_withType hanalysed'.named).setArguments hanalysed hanalysed' hset]
    next => rfl

/-- Declaring one more type, for no element, leaves what the model says of all others and of the
roots as it is, but for the implementers of the interfaces derived for an object. -/
theorem analyze_register_type {options : AnalysisOptions} {registry : Registry}
    {classes : List TypeName} {declaration : TypeDeclaration} {model larger : SchemaModel}
    (hanonymous : declaration.element = none)
    (hmodel : analyze options registry classes = .ok model)
    (hlarger : analyze options (registry.register (.type declaration)) classes = .ok larger) :
    ∃ catalog derived, Catalog.ofRegistry (registry.register (.type declaration)) = .ok catalog ∧
      (∀ name, name ∈ derived ↔
        declaration.kind = .object ∧ catalog.Derives declaration.name name) ∧
      model.Gains declaration derived larger := by
  obtain ⟨catalog, hcatalog, hanalysed⟩ := analysed_of_analyze hmodel
  obtain ⟨other, hother, hanalysed'⟩ := analysed_of_analyze hlarger
  obtain ⟨-, rfl⟩ := Catalog.ofRegistry_eq_ok_iff.mp hcatalog
  obtain ⟨-, hsettled⟩ := Catalog.ofRegistry_eq_ok_iff.mp hother
  rw [Registry.settledCatalog_register hanonymous] at hsettled
  subst hsettled
  have hself := Catalog.get?_withType_self hanalysed'.named
  have hwithin := Catalog.within_withType hanalysed'.named
  have hfree := Catalog.kindOf_eq_none_of_withType hanalysed'.named
  have hset : declaration.name ∉ Table.keys model.argumentSets := by
    rw [mem_argumentSets_iff hmodel hcatalog, hfree]
    exact nofun
  obtain ⟨hquery, hmutation⟩ := hwithin.roots hanalysed hanalysed' rfl
  refine ⟨_, _, hother, fun name => hanalysed'.mem_recordedInterfaces_iff hself, ?_⟩
  refine
    { fresh := ⟨Analysed.notMem_typeNames_of_withType hanalysed hanalysed', hset⟩
      objects := Analysed.exists_objects_withType hanalysed hanalysed'
      interfaces := Analysed.exists_interfaces_withType hanalysed hanalysed'
      inputs := Analysed.exists_inputs_withType hanalysed hanalysed'
      argumentSets := exists_argumentSets_withType hmodel hcatalog hlarger hother
      unions := by rw [hanalysed.unions, hanalysed'.unions]; rfl
      scalars := by rw [hanalysed.scalars, hanalysed'.scalars]; rfl
      enums := by rw [hanalysed.enums, hanalysed'.enums]; rfl
      elements := by rw [hanalysed.elements, hanalysed'.elements]; rfl
      query := hquery
      mutation := hmutation }

def TypeDeclaration.wolf : TypeDeclaration :=
  { TypeDeclaration.new .object "Wolf" with
    parent := some (.literal "Dog")
    fields := [.new "pack" (.list (.named (.literal "Wolf")))] }

theorem analyze_register_type_wolf :
    ∃ model larger catalog derived, TypeDeclaration.wolf.element = none ∧
      analyze {} Registry.nursery [.literal "Store"] = .ok model ∧
      analyze {} (Registry.nursery.register (.type .wolf)) [.literal "Store"] = .ok larger ∧
      (Table.get? model.interfaces "Animal").map InterfaceType.implementers =
        some ["Puppy", "Kitten", "Dog", "Cat"] ∧
      (Table.get? larger.interfaces "Animal").map InterfaceType.implementers =
        some ["Puppy", "Kitten", "Dog", "Cat", "Wolf"] ∧
      Catalog.ofRegistry (Registry.nursery.register (.type .wolf)) = .ok catalog ∧
      (∀ name, name ∈ derived ↔
        TypeDeclaration.wolf.kind = .object ∧ catalog.Derives "Wolf" name) ∧
      model.Gains .wolf derived larger := by
  have hrun : (analyze {} Registry.nursery [.literal "Store"]).toOption.any (fun model =>
      decide ((Table.get? model.interfaces "Animal").map InterfaceType.implementers =
        some ["Puppy", "Kitten", "Dog", "Cat"])) = true := by
    decide +kernel
  have hrun' : (analyze {} (Registry.nursery.register (.type .wolf))
      [.literal "Store"]).toOption.any (fun larger =>
        decide ((Table.get? larger.interfaces "Animal").map InterfaceType.implementers =
          some ["Puppy", "Kitten", "Dog", "Cat", "Wolf"])) = true := by
    decide +kernel
  obtain ⟨model, hmodel, himplementers⟩ := exists_ok_of_any hrun
  obtain ⟨larger, hlarger, himplementers'⟩ := exists_ok_of_any hrun'
  obtain ⟨catalog, derived, hcatalog, hderived, hgains⟩ := analyze_register_type rfl hmodel hlarger
  exact ⟨model, larger, catalog, derived, rfl, hmodel, hlarger, of_decide_eq_true himplementers,
    of_decide_eq_true himplementers', hcatalog, hderived, hgains⟩

end Schemata
