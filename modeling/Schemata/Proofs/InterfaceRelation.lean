import Schemata.Proofs.Analysis

namespace Schemata

/-- `name` is an interface of `object`: it is in the lineage of one that some type in the object's
lineage lists. -/
def Catalog.Derives (catalog : Catalog) (object name : String) : Prop :=
  ∃ chain, catalog.IsLineage object chain ∧
    ∃ type ∈ chain, ∃ entry, catalog.get? type = some entry ∧
      ∃ listed ∈ entry.interfaces, ∃ ancestors,
        catalog.IsLineage listed ancestors ∧ name ∈ ancestors

namespace InterfaceRelation

/-- A relation that says of each object and of each interface all that the catalog says. -/
structure Exact (catalog : Catalog) (relation : InterfaceRelation) : Prop where
  objects : Table.keys relation.interfaces = Table.keys (catalog.typesOfKind .object)
  distinct : ∀ object interfaces, (object, interfaces) ∈ relation.interfaces → interfaces.Nodup
  derived : ∀ object interfaces, (object, interfaces) ∈ relation.interfaces →
    ∀ name, name ∈ interfaces ↔ catalog.Derives object name
  ancestors : ∀ object interfaces, (object, interfaces) ∈ relation.interfaces →
    ∀ name ∈ interfaces, ∃ ancestors, Table.get? relation.ancestors name = some ancestors ∧
      catalog.IsLineage name (name :: ancestors) ∧ ancestors ⊆ interfaces
  inherited : ∀ object interfaces, (object, interfaces) ∈ relation.interfaces →
    ∀ entry parent, catalog.get? object = some entry → entry.parent = some parent →
      ∃ above, Table.get? relation.interfaces parent = some above ∧ above ⊆ interfaces
  keys : Table.keys relation.implementers = Table.keys (catalog.typesOfKind .interface)
  indexed : ∀ object interfaces, (object, interfaces) ∈ relation.interfaces →
    interfaces ⊆ Table.keys relation.implementers
  /-- Each object once, in catalog order. -/
  ordered : ∀ name objects, (name, objects) ∈ relation.implementers →
    objects.Nodup ∧ objects.Sublist (Table.keys (catalog.typesOfKind .object))
  inverse : ∀ name objects, (name, objects) ∈ relation.implementers →
    ∀ object, object ∈ objects ↔
      ∃ interfaces, (object, interfaces) ∈ relation.interfaces ∧ name ∈ interfaces

end InterfaceRelation

namespace Catalog

variable {catalog : Catalog}

theorem Derives.ancestor {object name : String} {chain : List String}
    (h : catalog.Derives object name) (hchain : IsLineage catalog name chain) :
    ∀ other ∈ chain, catalog.Derives object other := by
  obtain ⟨types, htypes, type, htype, entry, hentry, listed, hlisted, ancestors, hancestors,
    hname⟩ := h
  intro other hother
  obtain ⟨below, above, rfl⟩ := List.append_of_mem hname
  -- The rest of a lineage from one of its types on is the lineage of that type.
  obtain rfl := hchain.unique hancestors.suffix
  exact ⟨types, htypes, type, htype, entry, hentry, listed, hlisted, _, hancestors,
    List.mem_append_right _ hother⟩

/-- What is derived for a type is derived for every type below it. -/
theorem Derives.below {object parent name : String} {below above : List String}
    (hchain : IsLineage catalog object (below ++ parent :: above))
    (h : catalog.Derives parent name) : catalog.Derives object name := by
  obtain ⟨types, htypes, type, htype, hlisted⟩ := h
  obtain rfl := hchain.suffix.unique htypes
  exact ⟨_, hchain, type, List.mem_append_right _ htype, hlisted⟩

/-- The interfaces collected for an object are those derived. -/
theorem mem_interfacesOf {object : String} {interfaces : List String}
    (h : catalog.interfacesOf object = .ok interfaces) (name : String) :
    name ∈ interfaces ↔ catalog.Derives object name := by
  obtain ⟨chain, hchain, hall, rfl⟩ := interfacesOf_eq_ok_iff.mp h
  rw [mem_derivedInterfaces]
  constructor
  · rintro ⟨type, htype, entry, hentry, listed, hlisted, hname⟩
    obtain ⟨names, hnames⟩ := hall (type, listed)
      (mem_implementsClauses.mpr ⟨htype, entry, hentry, hlisted⟩)
    have hlineage := (implementedBy_eq_ok_iff.mp hnames).2
    rw [hlineage.ancestry_eq] at hname
    exact ⟨chain, hchain, type, htype, entry, hentry, listed, hlisted, names, hlineage, hname⟩
  · rintro ⟨other, hother, type, htype, entry, hentry, listed, hlisted, ancestors, hancestors,
      hname⟩
    obtain rfl := hchain.unique hother
    rw [← hancestors.ancestry_eq] at hname
    exact ⟨type, htype, entry, hentry, listed, hlisted, hname⟩

end Catalog

namespace Fulfilment

section

variable {catalog : Catalog} {effective : Table FieldSet} {inherit : Bool}
  (hn : (Table.keys catalog.types).Nodup)
  (heffective : ∀ name ∈ Table.keys catalog.types, ∃ fields,
    Table.get? effective name = some fields)

include hn heffective

omit hn in
/-- What is recorded of an object are the interfaces collected for it. -/
theorem recorded?_eq_some_iff {object : String} {interfaces : List String}
    (hobject : object ∈ Table.keys (catalog.typesOfKind .object)) :
    recorded? catalog effective object = some interfaces ↔
      catalog.interfacesOf object = .ok interfaces := by
  obtain ⟨own, hown⟩ := heffective object (Catalog.keys_typesOfKind_subset _ _ hobject)
  cases hi : catalog.interfacesOf object <;> simp [recorded?, hi, hown]

theorem mem_run_interfaces_iff {object : String} {interfaces : List String} :
    (object, interfaces) ∈ (run catalog effective inherit).relation.interfaces ↔
      object ∈ Table.keys (catalog.typesOfKind .object) ∧
        catalog.interfacesOf object = .ok interfaces := by
  have hobjects := Catalog.nodup_keys_typesOfKind hn .object
  rw [run_interfaces _ _ _ hn,
    ← Table.get?_eq_some_iff (Table.nodup_keys_filterMap _ hobjects), Table.get?_filterMap]
  constructor
  · intro h
    split at h
    next hobject => exact ⟨hobject, (recorded?_eq_some_iff heffective hobject).mp h⟩
    next => cases h
  · rintro ⟨hobject, hi⟩
    rw [if_pos hobject, (recorded?_eq_some_iff heffective hobject).mpr hi]

/-- A run without problems records every object. -/
theorem keys_run_interfaces (hnone : (run catalog effective inherit).problems = []) :
    Table.keys (run catalog effective inherit).relation.interfaces =
      Table.keys (catalog.typesOfKind .object) := by
  rw [run_interfaces _ _ _ hn, Table.keys_filterMap, List.filter_eq_self]
  intro object hobject
  have hfine := ((run_problems_eq_nil_iff _ _ _ hn).mp hnone).2 object hobject
  obtain ⟨interfaces, hi, -⟩ := objectProblems_eq_nil_iff.mp hfine
  rw [(recorded?_eq_some_iff heffective hobject).mpr hi, Option.isSome_some]

theorem mem_run_implementers {name : String} {objects : List String}
    (h : (name, objects) ∈ (run catalog effective inherit).relation.implementers) :
    objects.Sublist (Table.keys (catalog.typesOfKind .object)) ∧
      ∀ object, object ∈ objects ↔ ∃ interfaces,
        (object, interfaces) ∈ (run catalog effective inherit).relation.interfaces ∧
          name ∈ interfaces := by
  rw [run_implementers _ _ _ hn] at h
  obtain ⟨listed, -, he⟩ := List.mem_map.mp h
  obtain ⟨rfl, rfl⟩ := Prod.mk.inj he
  refine ⟨List.filter_sublist, fun object => ?_⟩
  simp only [List.mem_filter, decide_eq_true_eq, mem_run_interfaces_iff hn heffective]
  constructor
  · rintro ⟨hobject, hm⟩
    cases hrecorded : recorded? catalog effective object with
    | none => simp [hrecorded] at hm
    | some interfaces =>
      rw [hrecorded, Option.getD_some] at hm
      have hi := (recorded?_eq_some_iff heffective hobject).mp hrecorded
      exact ⟨interfaces, ⟨hobject, hi⟩, hm⟩
  · rintro ⟨interfaces, ⟨hobject, hi⟩, hm⟩
    rw [(recorded?_eq_some_iff heffective hobject).mpr hi]
    exact ⟨hobject, hm⟩

omit heffective in
theorem keys_run_implementers :
    Table.keys (run catalog effective inherit).relation.implementers =
      Table.keys (catalog.typesOfKind .interface) := by
  rw [run_implementers _ _ _ hn, Table.keys,
    List.map_map]
  exact List.map_id _

/-- An interface recorded of an object is a declared one. -/
theorem interface_of_mem_run {object : String} {interfaces : List String}
    (h : (object, interfaces) ∈ (run catalog effective inherit).relation.interfaces) :
    interfaces ⊆ Table.keys (catalog.typesOfKind .interface) := by
  intro name hname
  have hi := ((mem_run_interfaces_iff hn heffective).mp h).2
  exact (Catalog.mem_keys_typesOfKind hn).mpr (Catalog.interface_of_mem_interfacesOf hi hname)

variable (hlineages : ∀ name ∈ Table.keys catalog.types, ∃ chain, catalog.IsLineage name chain)

include hlineages

omit heffective in
/-- With lineages in order, all problems of a run are those of its objects. -/
theorem mem_run_problems_iff {problem : Problem} :
    problem ∈ (run catalog effective inherit).problems ↔
      ∃ object ∈ Table.keys (catalog.typesOfKind .object),
        problem ∈ objectProblems catalog effective inherit object := by
  rw [mem_run_problems _ _ _ hn]
  refine or_iff_right ?_
  rintro ⟨interface, hinterface, hproblem⟩
  obtain ⟨chain, hchain⟩ := hlineages interface (Catalog.keys_typesOfKind_subset _ _ hinterface)
  rw [Catalog.lineage_eq_ok_iff.mpr hchain] at hproblem
  cases hproblem

/-- The ancestors recorded for an interface are the rest of its lineage, and they are interfaces of
every object that the interface is one of. -/
theorem run_interfaces_ancestors {object : String} {interfaces : List String}
    (h : (object, interfaces) ∈ (run catalog effective inherit).relation.interfaces) {name : String}
    (hname : name ∈ interfaces) :
    ∃ ancestors,
      Table.get? (run catalog effective inherit).relation.ancestors name = some ancestors ∧
        catalog.IsLineage name (name :: ancestors) ∧ ancestors ⊆ interfaces := by
  have hi := ((mem_run_interfaces_iff hn heffective).mp h).2
  have hlisted := interface_of_mem_run hn heffective h hname
  obtain ⟨chain, hchain⟩ := hlineages name (Catalog.keys_typesOfKind_subset _ _ hlisted)
  obtain ⟨ancestors, rfl⟩ := hchain.exists_cons
  have hrecorded := get?_run_ancestors _ effective inherit hn hlisted (Catalog.lineage_eq_ok_iff.mpr hchain)
  refine ⟨ancestors, hrecorded, hchain, fun other hother => ?_⟩
  rw [Catalog.mem_interfacesOf hi] at hname ⊢
  exact hname.ancestor hchain other (List.mem_cons_of_mem _ hother)

/-- An object has the interfaces of its parent. -/
theorem run_interfaces_parent (hnone : (run catalog effective inherit).problems = [])
    {object parent : String} {interfaces : List String} {entry : TypeEntry}
    (h : (object, interfaces) ∈ (run catalog effective inherit).relation.interfaces)
    (hentry : catalog.get? object = some entry) (hparent : entry.parent = some parent) :
    ∃ above, Table.get? (run catalog effective inherit).relation.interfaces parent = some above ∧
      above ⊆ interfaces := by
  obtain ⟨hobject, hi⟩ := (mem_run_interfaces_iff hn heffective).mp h
  obtain ⟨found, hfound, hkind⟩ := (Catalog.mem_keys_typesOfKind hn).mp hobject
  obtain rfl := Option.some.inj (hentry.symm.trans hfound)
  obtain ⟨chain, hchain⟩ := hlineages object (Table.mem_keys_of_get? hentry)
  obtain ⟨_, rfl, hrest, above, habove, hsame⟩ := hchain.parent hentry hparent
  obtain ⟨rest, rfl⟩ := hrest.exists_cons
  have hbelow : catalog.IsLineage object ([object] ++ parent :: rest) := hchain
  -- The parent is an object too, so it is recorded.
  have hlisted := (Catalog.mem_keys_typesOfKind hn).mpr ⟨above, habove, hsame.trans hkind⟩
  rw [← keys_run_interfaces hn heffective hnone] at hlisted
  obtain ⟨inherited, hinherited⟩ := Table.exists_get?_of_mem_keys hlisted
  refine ⟨inherited, hinherited, fun name hname => ?_⟩
  have hparents := (mem_run_interfaces_iff hn heffective).mp (Table.mem_of_get? hinherited)
  rw [Catalog.mem_interfacesOf hparents.2] at hname
  rw [Catalog.mem_interfacesOf hi]
  exact hname.below hbelow

end

end Fulfilment

open Fulfilment in
/-- The relation that a passed validation reports is exact. Names are distinct in every table that
is built from declarations. -/
theorem Catalog.validate_exact {catalog : Catalog} (hn : (Table.keys catalog.types).Nodup)
    {flattened : Table FieldSet} (hflattened : catalog.allFields = .ok flattened) {inherit : Bool}
    {relation : InterfaceRelation} (h : (catalog.validate flattened inherit).1 = .ok relation) :
    relation.Exact catalog := by
  obtain ⟨hlineages, rfl⟩ := (allFields_eq_ok_iff hn).mp hflattened
  obtain ⟨hnone, rfl⟩ := unlessProblems_eq_ok_iff.mp h
  have heffective (name : String) (hname : name ∈ Table.keys catalog.types) :
      ∃ fields, Table.get? catalog.flattened name = some fields := by
    obtain ⟨entry, hentry⟩ := Table.exists_get?_of_mem_keys hname
    exact ⟨_, by rw [get?_flattened, get?, hentry, Option.map_some]⟩
  refine
    { objects := keys_run_interfaces hn heffective hnone
      distinct := ?_
      derived := ?_
      ancestors := ?_
      inherited := ?_
      keys := keys_run_implementers hn
      indexed := ?_
      ordered := ?_
      inverse := ?_ }
  · intro object interfaces hm
    exact interfacesOf_nodup ((mem_run_interfaces_iff hn heffective).mp hm).2
  · intro object interfaces hm
    exact mem_interfacesOf ((mem_run_interfaces_iff hn heffective).mp hm).2
  · intro object interfaces hm name hname
    exact run_interfaces_ancestors hn heffective hlineages hm hname
  · intro object interfaces hm entry parent hentry hparent
    exact run_interfaces_parent hn heffective hlineages hnone hm hentry hparent
  · intro object interfaces hm
    rw [keys_run_implementers hn]
    exact interface_of_mem_run hn heffective hm
  · intro name objects hm
    have hsub := (mem_run_implementers hn heffective hm).1
    exact ⟨(nodup_keys_typesOfKind hn .object).sublist hsub, hsub⟩
  · intro name objects hm
    exact (mem_run_implementers hn heffective hm).2

theorem Catalog.validate_exact_nursery :
    ∃ catalog flattened relation, Catalog.ofRegistry Registry.nursery = .ok catalog ∧
      (Table.keys catalog.types).Nodup ∧ catalog.allFields = .ok flattened ∧
      (catalog.validate flattened true).1 = .ok relation ∧
      Table.get? relation.interfaces "Puppy" = some ["Animal", "Node"] ∧
      relation.Exact catalog := by
  have hrun : (Catalog.ofRegistry Registry.nursery).toOption.any (fun catalog =>
      catalog.allFields.toOption.any fun flattened =>
        (catalog.validate flattened true).1.toOption.any fun relation =>
          decide (Table.get? relation.interfaces "Puppy" = some ["Animal", "Node"])) = true := by
    decide +kernel
  obtain ⟨catalog, hcatalog, hrun⟩ := exists_ok_of_any hrun
  obtain ⟨flattened, hflattened, hrun⟩ := exists_ok_of_any hrun
  obtain ⟨relation, hrelation, hrun⟩ := exists_ok_of_any hrun
  have hn := (Catalog.ofRegistry_wellNamed hcatalog).types_nodup
  exact ⟨catalog, flattened, relation, hcatalog, hn, hflattened, hrelation,
    of_decide_eq_true hrun, validate_exact hn hflattened hrelation⟩

end Schemata
