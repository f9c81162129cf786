import Schemata.Catalog.Draft
import Schemata.Proofs.Problem
import Schemata.Proofs.Table

namespace Schemata

namespace Catalog

def names (catalog : Catalog) : List String :=
  Table.keys catalog.types ++ (Table.keys catalog.scalars ++
    (Table.keys catalog.enums ++ Table.keys catalog.unions))

structure WellNamed (catalog : Catalog) : Prop where
  nodup : catalog.names.Nodup
  not_builtin : ∀ name ∈ catalog.names, isBuiltinScalar name = false

theorem isTaken_eq_false_iff {catalog : Catalog} {name : String} :
    catalog.isTaken name = false ↔ isBuiltinScalar name = false ∧ name ∉ catalog.names := by
  simp only [isTaken, names, Bool.or_eq_false_iff, Table.contains_eq_false_iff, List.mem_append,
    not_or, and_assoc]

theorem perm_cons_of_append {name : String} {more rest : List String} (front : List String)
    (h : more.Perm (name :: rest)) : (front ++ more).Perm (name :: (front ++ rest)) :=
  (h.append_left front).trans List.perm_middle

section Insertion

variable {catalog : Catalog} {name : String} (hnew : name ∉ catalog.names)

include hnew

theorem names_insert_type (entry : TypeEntry) :
    ({ catalog with types := Table.insert catalog.types name entry } : Catalog).names.Perm
      (name :: catalog.names) := by
  simp only [names, List.mem_append, not_or] at hnew
  simp only [names, Table.keys_insert, if_neg hnew.1, List.append_assoc, List.singleton_append]
  exact List.perm_middle

theorem names_insert_scalar (scalar : ScalarDeclaration) :
    ({ catalog with scalars := Table.insert catalog.scalars name scalar } : Catalog).names.Perm
      (name :: catalog.names) := by
  simp only [names, List.mem_append, not_or] at hnew
  simp only [names, Table.keys_insert, if_neg hnew.2.1, List.append_assoc, List.singleton_append]
  exact perm_cons_of_append _ List.perm_middle

theorem names_insert_enum (enum : EnumDeclaration) :
    ({ catalog with enums := Table.insert catalog.enums name enum } : Catalog).names.Perm
      (name :: catalog.names) := by
  simp only [names, List.mem_append, not_or] at hnew
  simp only [names, Table.keys_insert, if_neg hnew.2.2.1, List.append_assoc, List.singleton_append]
  exact perm_cons_of_append _ (perm_cons_of_append _ List.perm_middle)

theorem names_insert_union (union : UnionEntry) :
    ({ catalog with unions := Table.insert catalog.unions name union } : Catalog).names.Perm
      (name :: catalog.names) := by
  simp only [names, List.mem_append, not_or] at hnew
  simp only [names, Table.keys_insert, if_neg hnew.2.2.2]
  exact perm_cons_of_append _ (perm_cons_of_append _ (perm_cons_of_append _
    (List.perm_append_singleton ..)))

end Insertion

theorem nodup_keys_typesOfKind {catalog : Catalog} (hn : (Table.keys catalog.types).Nodup)
    (kind : TypeKind) : (Table.keys (catalog.typesOfKind kind)).Nodup :=
  Table.nodup_keys_filter hn _

theorem keys_typesOfKind_subset (catalog : Catalog) (kind : TypeKind) :
    Table.keys (catalog.typesOfKind kind) ⊆ Table.keys catalog.types :=
  (List.filter_sublist.map _).subset

theorem mem_keys_typesOfKind {catalog : Catalog} (hn : (Table.keys catalog.types).Nodup)
    {kind : TypeKind} {name : String} :
    name ∈ Table.keys (catalog.typesOfKind kind) ↔
      ∃ entry, catalog.get? name = some entry ∧ entry.kind = kind := by
  rw [← Table.contains_iff, Table.contains, typesOfKind, Table.get?_filter hn,
    Option.isSome_iff_exists]
  simp only [Option.filter_eq_some_iff, decide_eq_true_eq]
  rfl

namespace WellNamed

variable {catalog : Catalog}

theorem empty (elements : ElementNames) : WellNamed { elements := elements } :=
  ⟨List.nodup_nil, by simp [names]⟩

theorem of_names_eq {other : Catalog} (h : WellNamed catalog) (he : other.names = catalog.names) :
    WellNamed other :=
  ⟨he ▸ h.nodup, he ▸ h.not_builtin⟩

/-- A catalog stays well named when it gains a name that is not taken. -/
theorem of_perm {other : Catalog} (h : WellNamed catalog) {name : String}
    (hfree : catalog.isTaken name = false) (hp : other.names.Perm (name :: catalog.names)) :
    WellNamed other := by
  rw [isTaken_eq_false_iff] at hfree
  refine ⟨hp.nodup_iff.mpr (List.nodup_cons.mpr ⟨hfree.2, h.nodup⟩), fun other ho => ?_⟩
  rcases List.mem_cons.mp (hp.mem_iff.mp ho) with rfl | ho
  · exact hfree.1
  · exact h.not_builtin other ho

theorem types_nodup (h : WellNamed catalog) : (Table.keys catalog.types).Nodup :=
  (List.nodup_append.mp h.nodup).1

theorem scalars_nodup (h : WellNamed catalog) : (Table.keys catalog.scalars).Nodup :=
  (List.nodup_append.mp (List.nodup_append.mp h.nodup).2.1).1

theorem enums_nodup (h : WellNamed catalog) : (Table.keys catalog.enums).Nodup :=
  (List.nodup_append.mp (List.nodup_append.mp (List.nodup_append.mp h.nodup).2.1).2.1).1

theorem unions_nodup (h : WellNamed catalog) : (Table.keys catalog.unions).Nodup :=
  (List.nodup_append.mp (List.nodup_append.mp (List.nodup_append.mp h.nodup).2.1).2.1).2.1

/-- A declared type is neither a scalar nor an enum nor a union. -/
theorem notMem_of_type (h : WellNamed catalog) {name : String}
    (hn : name ∈ Table.keys catalog.types) :
    name ∉ Table.keys catalog.scalars ∧ name ∉ Table.keys catalog.enums ∧
      name ∉ Table.keys catalog.unions := by
  have hd : name ∉ Table.keys catalog.scalars ++
      (Table.keys catalog.enums ++ Table.keys catalog.unions) := fun hm =>
    (List.nodup_append.mp h.nodup).2.2 name hn name hm rfl
  simpa only [List.mem_append, not_or] using hd

theorem notMem_of_scalar (h : WellNamed catalog) {name : String}
    (hn : name ∈ Table.keys catalog.scalars) :
    name ∉ Table.keys catalog.enums ∧ name ∉ Table.keys catalog.unions := by
  have hd : name ∉ Table.keys catalog.enums ++ Table.keys catalog.unions := fun hm =>
    (List.nodup_append.mp (List.nodup_append.mp h.nodup).2.1).2.2 name hn name hm rfl
  simpa only [List.mem_append, not_or] using hd

theorem notMem_of_enum (h : WellNamed catalog) {name : String}
    (hn : name ∈ Table.keys catalog.enums) : name ∉ Table.keys catalog.unions := fun hm =>
  (List.nodup_append.mp (List.nodup_append.mp (List.nodup_append.mp h.nodup).2.1).2.1).2.2
    name hn name hm rfl

theorem typesOfKind_nodup (h : WellNamed catalog) (kind : TypeKind) :
    (Table.keys (catalog.typesOfKind kind)).Nodup :=
  nodup_keys_typesOfKind h.types_nodup kind

theorem get?_typesOfKind (h : WellNamed catalog) (kind : TypeKind) (name : String) :
    Table.get? (catalog.typesOfKind kind) name =
      (catalog.get? name).filter fun entry => decide (entry.kind = kind) :=
  Table.get?_filter h.types_nodup _ _

theorem mem_typesOfKind (h : WellNamed catalog) {kind : TypeKind} {name : String} :
    name ∈ Table.keys (catalog.typesOfKind kind) ↔
      ∃ entry, catalog.get? name = some entry ∧ entry.kind = kind :=
  mem_keys_typesOfKind h.types_nodup

theorem notMem_typesOfKind (h : WellNamed catalog) {kind : TypeKind} {name : String}
    {entry : TypeEntry} (hentry : catalog.get? name = some entry) (hkind : entry.kind ≠ kind) :
    name ∉ Table.keys (catalog.typesOfKind kind) := by
  rw [h.mem_typesOfKind]
  rintro ⟨found, hfound, hsame⟩
  obtain rfl := Option.some.inj (hentry.symm.trans hfound)
  exact hkind hsame

theorem contains_typesOfKind (h : WellNamed catalog) (kind : TypeKind) (name : String) :
    Table.contains (catalog.typesOfKind kind) name =
      (catalog.get? name).any fun entry => decide (entry.kind = kind) := by
  rw [Bool.eq_iff_iff, Table.contains_iff, h.mem_typesOfKind, Option.any_eq_true]
  simp only [decide_eq_true_eq]

/-- The entries of a table made from the types of one kind. -/
theorem exists_entry_of_mem_map {β : Type} (h : WellNamed catalog) {kind : TypeKind}
    {make : String → TypeEntry → β} {name : String} {value : β}
    (hm : (name, value) ∈ (catalog.typesOfKind kind).map fun type => (type.1, make type.1 type.2)) :
    ∃ entry, catalog.get? name = some entry ∧ entry.kind = kind ∧ value = make name entry := by
  obtain ⟨⟨other, entry⟩, hentry, he⟩ := List.mem_map.mp hm
  obtain ⟨rfl, rfl⟩ := Prod.mk.inj he
  have hget := Table.get?_of_mem (h.typesOfKind_nodup kind) hentry
  rw [h.get?_typesOfKind, Option.filter_eq_some_iff, decide_eq_true_eq] at hget
  exact ⟨entry, hget.1, hget.2, rfl⟩

theorem get?_typesOfKind_map {β : Type} (h : WellNamed catalog) (kind : TypeKind)
    (make : String → TypeEntry → β) (name : String) :
    Table.get? ((catalog.typesOfKind kind).map fun type => (type.1, make type.1 type.2)) name =
      ((catalog.get? name).filter fun entry => decide (entry.kind = kind)).map (make name) := by
  rw [Table.get?_map fun type : String × TypeEntry => make type.1 type.2, h.get?_typesOfKind]

theorem get?_map_typesOfKind {β : Type} (h : WellNamed catalog) {kind : TypeKind}
    (make : String → TypeEntry → β) {name : String} {entry : TypeEntry}
    (hentry : catalog.get? name = some entry) (hkind : entry.kind = kind) :
    Table.get? ((catalog.typesOfKind kind).map fun type => (type.1, make type.1 type.2)) name =
      some (make name entry) := by
  rw [h.get?_typesOfKind_map, hentry, Option.filter_some, if_pos (decide_eq_true hkind),
    Option.map_some]

/-- What a name of a declared type stands for. -/
theorem kindOf_of_get? (h : WellNamed catalog) {name : String} {entry : TypeEntry}
    (hentry : catalog.get? name = some entry) :
    catalog.kindOf name = some (.declared entry.kind) := by
  have hn := Table.mem_keys_of_get? hentry
  have hb := h.not_builtin name (List.mem_append_left _ hn)
  have hs := Table.contains_eq_false_iff.mpr (h.notMem_of_type hn).1
  simp [kindOf, hb, hs, hentry]

theorem kindOf_of_scalar {name : String} (hn : name ∈ Table.keys catalog.scalars) :
    catalog.kindOf name = some .scalar := by
  rw [kindOf, Table.contains_iff.mpr hn, Bool.or_true, if_pos rfl]

theorem kindOf_of_enum (h : WellNamed catalog) {name : String}
    (hn : name ∈ Table.keys catalog.enums) : catalog.kindOf name = some .enum := by
  have hb : isBuiltinScalar name = false := h.not_builtin name (by simp [names, hn])
  have hs : Table.contains catalog.scalars name = false :=
    Table.contains_eq_false_iff.mpr fun hs => (h.notMem_of_scalar hs).1 hn
  have ht : catalog.get? name = none :=
    (Table.get?_eq_none_iff _ _).mpr fun ht => (h.notMem_of_type ht).2.1 hn
  simp [kindOf, hb, hs, ht, Table.contains_iff.mpr hn]

theorem kindOf_of_union (h : WellNamed catalog) {name : String}
    (hn : name ∈ Table.keys catalog.unions) : catalog.kindOf name = some .union := by
  have hb : isBuiltinScalar name = false := h.not_builtin name (by simp [names, hn])
  have hs : Table.contains catalog.scalars name = false :=
    Table.contains_eq_false_iff.mpr fun hs => (h.notMem_of_scalar hs).2 hn
  have ht : catalog.get? name = none :=
    (Table.get?_eq_none_iff _ _).mpr fun ht => (h.notMem_of_type ht).2.2 hn
  have he : Table.contains catalog.enums name = false :=
    Table.contains_eq_false_iff.mpr fun he => h.notMem_of_enum he hn
  simp [kindOf, hb, hs, ht, he, Table.contains_iff.mpr hn]

end WellNamed

theorem kindOf_of_builtin {catalog : Catalog} {name : String} (h : isBuiltinScalar name = true) :
    catalog.kindOf name = some .scalar := by
  rw [kindOf, h, Bool.true_or, if_pos rfl]

theorem kindOf_eq_declared {catalog : Catalog} {name : String} {kind : TypeKind}
    (h : catalog.kindOf name = some (.declared kind)) :
    ∃ entry, catalog.get? name = some entry ∧ entry.kind = kind := by
  rw [kindOf] at h
  split at h
  next => cases h
  next =>
    split at h
    next entry hentry => exact ⟨entry, hentry, NamedKind.declared.inj (Option.some.inj h)⟩
    next =>
      split at h
      next => cases h
      next => split at h <;> cases h

end Catalog

namespace CatalogDraft

variable {draft : CatalogDraft}

theorem reserve_wellNamed (h : draft.catalog.WellNamed) {name : String}
    {add : CatalogDraft → CatalogDraft}
    (hp : name ∉ draft.catalog.names → (add draft).catalog.names.Perm (name :: draft.catalog.names)) :
    (draft.reserve name add).catalog.WellNamed := by
  rw [reserve]
  split
  next => exact h
  next hfree =>
    rw [Bool.not_eq_true] at hfree
    exact h.of_perm hfree (hp (Catalog.isTaken_eq_false_iff.mp hfree).2)

theorem addType_wellNamed (h : draft.catalog.WellNamed) (declaration : TypeDeclaration) :
    (draft.addType declaration).catalog.WellNamed :=
  reserve_wellNamed h fun hnew => Catalog.names_insert_type hnew _

theorem addScalar_wellNamed (h : draft.catalog.WellNamed) (declaration : ScalarDeclaration) :
    (draft.addScalar declaration).catalog.WellNamed :=
  reserve_wellNamed h fun hnew => Catalog.names_insert_scalar hnew _

theorem addEnum_wellNamed (h : draft.catalog.WellNamed) (declaration : EnumDeclaration) :
    (draft.addEnum declaration).catalog.WellNamed :=
  reserve_wellNamed h fun hnew => Catalog.names_insert_enum hnew _

theorem addUnion_wellNamed (h : draft.catalog.WellNamed) (declaration : UnionDeclaration) :
    (draft.addUnion declaration).catalog.WellNamed :=
  reserve_wellNamed h fun hnew => Catalog.names_insert_union hnew _

/-- Attaching to a declared type what was registered for it declares no name. -/
theorem modifyType_wellNamed (h : draft.catalog.WellNamed) (name : String)
    (change : TypeEntry → TypeEntry) : (draft.catalog.modifyType name change).WellNamed :=
  h.of_names_eq (by simp only [Catalog.names, Catalog.modifyType, Table.keys_modify])

theorem addField_wellNamed (h : draft.catalog.WellNamed) (late : TypeName × FieldDeclaration) :
    (draft.addField late).catalog.WellNamed := by
  unfold addField
  dsimp only
  split
  next => exact modifyType_wellNamed h _ _
  next => exact h

theorem addExtension_wellNamed (h : draft.catalog.WellNamed) (edge : TypeName × TypeName) :
    (draft.addExtension edge).catalog.WellNamed := by
  unfold addExtension
  dsimp only
  split
  next => exact h
  next =>
    split
    next => split <;> exact h
    next => exact modifyType_wellNamed h _ _

theorem addImplementation_wellNamed (h : draft.catalog.WellNamed) (edge : TypeName × TypeName) :
    (draft.addImplementation edge).catalog.WellNamed := by
  unfold addImplementation
  dsimp only
  split
  next => exact h
  next =>
    split
    next => exact h
    next =>
      split
      next => exact h
      next => exact modifyType_wellNamed h _ _

theorem addResolver_wellNamed (h : draft.catalog.WellNamed) (resolver : TypeName × ResolverMethod) :
    (draft.addResolver resolver).catalog.WellNamed :=
  h.of_names_eq rfl

theorem foldl_wellNamed {ι : Type} {step : CatalogDraft → ι → CatalogDraft}
    (hstep : ∀ {draft : CatalogDraft}, draft.catalog.WellNamed → ∀ item,
      (step draft item).catalog.WellNamed)
    (h : draft.catalog.WellNamed) (items : List ι) :
    (items.foldl step draft).catalog.WellNamed := by
  induction items generalizing draft with
  | nil => exact h
  | cons item rest ih => exact ih (hstep h item)

theorem ofRegistry_wellNamed (registry : Registry) :
    (CatalogDraft.ofRegistry registry).catalog.WellNamed := by
  -- One stage of registration after the other, in the order of the code.
  have hstart : ({ catalog := { elements := registry.elementNames } } : CatalogDraft).catalog.WellNamed :=
    .empty _
  have htypes := foldl_wellNamed addType_wellNamed hstart registry.types
  have hscalars := foldl_wellNamed addScalar_wellNamed htypes registry.scalars
  have henums := foldl_wellNamed addEnum_wellNamed hscalars registry.enums
  have hunions := foldl_wellNamed addUnion_wellNamed henums registry.unions
  have hfields := foldl_wellNamed addField_wellNamed hunions registry.fields
  have hextensions := foldl_wellNamed addExtension_wellNamed hfields registry.extensions
  have himplementations := foldl_wellNamed addImplementation_wellNamed hextensions
    registry.implementations
  exact foldl_wellNamed addResolver_wellNamed himplementations registry.resolvers

end CatalogDraft

theorem Catalog.ofRegistry_wellNamed {registry : Registry} {catalog : Catalog}
    (h : Catalog.ofRegistry registry = .ok catalog) : catalog.WellNamed := by
  obtain ⟨-, rfl⟩ := unlessProblems_eq_ok_iff.mp h
  exact CatalogDraft.ofRegistry_wellNamed registry

end Schemata
