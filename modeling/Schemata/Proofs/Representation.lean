import Schemata.Proofs.ArgumentSets
import Schemata.Proofs.FlattenedArguments
import Schemata.Proofs.SettledCatalog

namespace Schemata

/-- A model field that says what the declaration of a field says. -/
structure ModelField.Carries (names : ElementNames) (field : ModelField) (seen : SeenField) :
    Prop where
  name : field.name = seen.declaration.name
  owner : field.owner = seen.owner
  type : field.type = seen.declaration.type.signature names
  description : field.description = seen.declaration.description
  deprecation : field.deprecation = seen.declaration.deprecation
  handler : field.handler = seen.declaration.handler

/-- A model field with all that its declaration says, its arguments included. -/
structure ModelField.Renders (catalog : Catalog) (flattened : Table FieldSet) (field : ModelField)
    (seen : SeenField) : Prop where
  carries : field.Carries catalog.elements seen
  arguments : ∃ declared,
    List.Forall₂ (PlainLinking.Contributes catalog flattened) seen.declaration.sources declared ∧
      PlainLinking.Merges catalog declared.flatten field.arguments

structure ModelArgument.Carries (names : ElementNames) (argument : ModelArgument)
    (seen : SeenField) : Prop where
  name : argument.name = seen.declaration.name
  type : argument.type = seen.declaration.type.signature names
  description : argument.description = seen.declaration.description
  default : argument.default = seen.declaration.default

def Registry.namesOfKind (registry : Registry) (kind : TypeKind) : List String :=
  (registry.types.filter fun type => decide (type.kind = kind)).map TypeDeclaration.name

/-- `field` is declared for `type`, with it or later. -/
def Registry.DeclaresField (registry : Registry) (type : TypeDeclaration)
    (field : FieldDeclaration) : Prop :=
  field ∈ type.fields ∨
    ∃ owner, (owner, field) ∈ registry.fields ∧ owner.resolve registry.elementNames = type.name

/-- Nothing is left out if the step yields something for each item. -/
theorem forall₂_filterMap {α β : Type} {R : β → α → Prop} {step : α → Option β} {items : List α}
    (h : ∀ item ∈ items, ∃ value, step item = some value ∧ R value item) :
    List.Forall₂ R (items.filterMap step) items := by
  induction items with
  | nil => exact .nil
  | cons item rest ih =>
    rw [List.forall_mem_cons] at h
    obtain ⟨⟨value, hvalue, hR⟩, hrest⟩ := h
    rw [List.filterMap_cons, hvalue]
    exact .cons hR (ih hrest)

theorem map_eq_of_forall₂ {α β γ : Type} {R : α → β → Prop} {f : α → γ} {g : β → γ}
    (hR : ∀ a b, R a b → f a = g b) {front : List α} {back : List β}
    (h : List.Forall₂ R front back) : front.map f = back.map g := by
  induction h with
  | nil => rfl
  | cons hab _ ih => rw [List.map_cons, List.map_cons, hR _ _ hab, ih]

theorem exists_of_forall₂ {α β : Type} {R : α → β → Prop} {front : List α} {back : List β}
    (h : List.Forall₂ R front back) :
    (∀ a ∈ front, ∃ b ∈ back, R a b) ∧ ∀ b ∈ back, ∃ a ∈ front, R a b := by
  induction h with
  | nil => simp
  | cons hab _ ih =>
    simp only [List.mem_cons, forall_eq_or_imp, exists_eq_or_imp]
    exact ⟨⟨Or.inl hab, fun a ha => Or.inr (ih.1 a ha)⟩, Or.inl hab, fun b hb => Or.inr (ih.2 b hb)⟩

namespace PlainLinking

variable {catalog : Catalog} {effective : Table FieldSet}

open Linking (signature_eq_ok_iff linkArgument_eq_ok_iff)

theorem fieldsAt_eq {name : String} {fields : FieldSet}
    (h : Table.get? effective name = some fields) :
    fieldsAt effective name = Table.values fields := by
  rw [fieldsAt, h, Option.getD_some]

/-- A field with which nothing is wrong is linked, and says what it was declared to. -/
theorem linkField_carries {owner : String} (declaredBy : String) {field : FieldDeclaration}
    (h : fieldProblems catalog effective owner field = []) :
    ∃ linked, linkField catalog effective owner declaredBy field = some linked ∧
      linked.Carries catalog.elements ⟨declaredBy, field⟩ := by
  rw [fieldProblems, List.append_eq_nil_iff, Option.toList_eq_nil_iff,
    problemOf_eq_none_iff] at h
  obtain ⟨-, type, htype⟩ := h
  have hresolved := (signature_eq_ok_iff.mp htype).1
  rw [linkField, htype]
  exact ⟨_, rfl, rfl, rfl, hresolved.symm, rfl, rfl, rfl⟩

theorem linkFields_carry {owner : String} (h : fieldsProblems catalog effective owner = []) :
    List.Forall₂ (ModelField.Carries catalog.elements) (linkFields catalog effective owner)
      (fieldsAt effective owner) := by
  rw [fieldsProblems, List.flatMap_eq_nil_iff] at h
  exact forall₂_filterMap fun seen hseen => linkField_carries seen.owner (h seen hseen)

theorem forall_of_inputProblems {owner : String} (h : inputProblems catalog effective owner = []) :
    ∀ seen ∈ fieldsAt effective owner,
      problemOf (Linking.linkArgument catalog owner seen.declaration) = none := by
  rw [inputProblems, List.flatMap_eq_nil_iff] at h
  intro seen hseen
  exact Option.toList_eq_nil_iff.mp (List.append_eq_nil_iff.mp (h seen hseen)).2

theorem forall_of_argumentSetProblems {name : String}
    (h : argumentSetProblems catalog effective name = []) :
    ∀ seen ∈ fieldsAt effective name,
      problemOf (Linking.linkArgument catalog name seen.declaration) = none := by
  have hset := (List.append_eq_nil_iff.mp h).2
  rw [setProblems, List.flatMap_eq_nil_iff] at hset
  intro seen hseen
  exact Option.toList_eq_nil_iff.mp (hset seen hseen)

end PlainLinking

namespace Catalog

variable {catalog : Catalog}

end Catalog

namespace Analysed

variable {options : AnalysisOptions} {classes : List TypeName} {catalog : Catalog}
  {model : SchemaModel}

/-- Supplied fields are added to those along the lineage, which all stay. -/
theorem exists_finalFields (h : Analysed options classes catalog model) {name : String}
    {chain : List String} (hchain : catalog.IsLineage name chain) :
    ∃ fields, Table.get? (catalog.finalFields options) name = some fields ∧
      ∀ field seen, Table.get? (catalog.chainFields chain) field = some seen →
        Table.get? fields field = some seen := by
  obtain ⟨entry, hentry⟩ := hchain.exists_entry
  have hflattened : Table.get? catalog.flattened name = some (catalog.chainFields chain) := by
    rw [Catalog.get?_flattened, hentry, Option.map_some, hchain.ancestry_eq]
  by_cases hkind : entry.kind = .object
  · obtain ⟨interfaces, own, hsettled⟩ := h.exists_settled hentry hkind
    obtain rfl := Option.some.inj (hflattened.symm.trans hsettled.flattened)
    exact ⟨_, hsettled.completed, fun _ _ =>
      Requirement.get?_completed_of_own (Catalog.chainFields_wellKeyed chain) _⟩
  · exact ⟨_, (h.finalFields_of_kind hentry hkind).trans hflattened, fun _ _ => id⟩

theorem linkField_renders (h : Analysed options classes catalog model) {owner : String}
    (declaredBy : String) {field : FieldDeclaration}
    (hfine : PlainLinking.fieldProblems catalog (catalog.finalFields options) owner field = []) :
    ∃ linked, PlainLinking.linkField catalog (catalog.finalFields options) owner declaredBy field =
        some linked ∧
      linked.Renders catalog catalog.flattened ⟨declaredBy, field⟩ := by
  obtain ⟨linked, hlinked, hcarries⟩ := PlainLinking.linkField_carries declaredBy hfine
  refine ⟨linked, hlinked, hcarries, ?_⟩
  obtain ⟨type, -, rfl⟩ := Option.map_eq_some_iff.mp hlinked
  exact PlainLinking.exists_merges h.allFields_eq h.named.types_nodup
    (.of_others fun _ _ => h.finalFields_of_kind) (List.append_eq_nil_iff.mp hfine).1

/-- A field along the lineage of a type is one of the type below it too, unless it is declared anew on
the way. -/
theorem exists_passed_on (h : Analysed options classes catalog model) {name parent : String}
    {below above : List String} (hchain : catalog.IsLineage name (below ++ parent :: above))
    {entry : TypeEntry} (hentry : catalog.get? name = some entry)
    (hkind : entry.kind.isOutput = true) {inherited : ModelField} {seen : SeenField}
    (hseen : (parent :: above).findSome? (catalog.lastDeclared inherited.name) = some seen)
    (hlinked : PlainLinking.linkField catalog (catalog.finalFields options) parent seen.owner
      seen.declaration = some inherited) :
    ∃ field ∈ PlainLinking.linkFields catalog (catalog.finalFields options) name,
      field.name = inherited.name ∧
        ((below.findSome? (catalog.lastDeclared inherited.name) = none ∧ field = inherited) ∨
          ∃ anew, below.findSome? (catalog.lastDeclared inherited.name) = some anew ∧
            field.Renders catalog catalog.flattened anew) := by
  obtain ⟨fields, hfields, hkept⟩ := h.exists_finalFields hchain
  have hkeyed := h.finalFields_wellKeyed hfields
  have hsplit : Table.get? (catalog.chainFields (below ++ parent :: above)) inherited.name =
      (below.findSome? (catalog.lastDeclared inherited.name)).or (some seen) := by
    rw [Catalog.get?_chainFields, List.findSome?_append, hseen]
  cases hanew : below.findSome? (catalog.lastDeclared inherited.name) with
  | none =>
    rw [hanew, Option.none_or] at hsplit
    rw [PlainLinking.linkField_owner parent name] at hlinked
    have hfield := (PlainLinking.mem_linkFields_iff hfields hkeyed).mpr
      ⟨seen, hkept _ _ hsplit, hlinked⟩
    exact ⟨inherited, hfield, rfl, Or.inl ⟨rfl, rfl⟩⟩
  | some anew =>
    rw [hanew, Option.some_or] at hsplit
    have hmem := Table.mem_of_get? (hkept _ _ hsplit)
    have hthere : anew ∈ PlainLinking.fieldsAt (catalog.finalFields options) name := by
      rw [PlainLinking.fieldsAt_eq hfields]
      exact Table.mem_values_iff.mpr ⟨_, hmem⟩
    have hfine := h.fieldsProblems_eq_nil hentry hkind
    rw [PlainLinking.fieldsProblems, List.flatMap_eq_nil_iff] at hfine
    obtain ⟨field, hlinked, hrenders⟩ := h.linkField_renders anew.owner (hfine anew hthere)
    have hname : field.name = inherited.name := hrenders.carries.name.trans (hkeyed.named _ hmem)
    have hfield := (PlainLinking.mem_linkFields_iff hfields hkeyed).mpr
      ⟨anew, hname ▸ hkept _ _ hsplit, hlinked⟩
    exact ⟨field, hfield, hname, Or.inr ⟨anew, rfl, hrenders⟩⟩

/-- Nothing is wrong with what becomes an argument or a field of an input. -/
theorem linkArgument_fine (h : Analysed options classes catalog model) {name : String}
    {entry : TypeEntry} (hentry : catalog.get? name = some entry)
    (hkind : entry.kind.isOutput = false) :
    ∀ seen ∈ PlainLinking.fieldsAt (catalog.finalFields options) name,
      problemOf (Linking.linkArgument catalog name seen.declaration) = none := by
  have htype := h.typeProblems_eq_nil hentry
  cases hk : entry.kind with
  | object | interface =>
    rw [hk] at hkind
    cases hkind
  | input =>
    exact PlainLinking.forall_of_inputProblems
      (by simpa only [PlainLinking.typeProblems, hk] using htype)
  | argumentSet =>
    exact PlainLinking.forall_of_argumentSetProblems
      (by simpa only [PlainLinking.typeProblems, hk] using htype)

end Analysed

section Model

variable {options : AnalysisOptions} {registry : Registry} {classes : List TypeName}
  {model : SchemaModel} {catalog : Catalog} (h : analyze options registry classes = .ok model)
  (hcatalog : Catalog.ofRegistry registry = .ok catalog)

include h hcatalog

end Model

namespace Registry

variable {registry : Registry}

theorem keys_typesOfKind (kind : TypeKind) :
    Table.keys (registry.settledCatalog.typesOfKind kind) = registry.namesOfKind kind := by
  rw [Catalog.typesOfKind, settledCatalog, List.filter_map, Table.keys, List.map_map]
  rfl

theorem Accepted.types_nodup (h : registry.Accepted) :
    (registry.types.map TypeDeclaration.name).Nodup := by
  have hn := h.nodup
  rw [declarations, List.map_append, List.map_map] at hn
  exact (List.nodup_append.mp hn).1

theorem Accepted.get?_settledCatalog (h : registry.Accepted) {type : TypeDeclaration}
    (htype : type ∈ registry.types) :
    registry.settledCatalog.get? type.name = some (registry.settledEntry type) := by
  have hkeys : Table.keys registry.settledCatalog.types =
      registry.types.map TypeDeclaration.name := by
    rw [settledCatalog, Table.keys, List.map_map]
    rfl
  refine Table.get?_of_mem (by rw [hkeys]; exact h.types_nodup) ?_
  exact List.mem_map.mpr ⟨type, htype, rfl⟩

theorem exists_of_get?_settledCatalog {name : String} {entry : TypeEntry}
    (h : registry.settledCatalog.get? name = some entry) :
    ∃ type ∈ registry.types, type.name = name ∧ registry.settledEntry type = entry := by
  obtain ⟨type, htype, he⟩ := List.mem_map.mp (Table.mem_of_get? h)
  obtain ⟨hname, hentry⟩ := Prod.mk.inj he
  exact ⟨type, htype, hname, hentry⟩

theorem mem_settledEntry_iff {type : TypeDeclaration} {field : FieldDeclaration} :
    field ∈ (registry.settledEntry type).fields ↔ registry.DeclaresField type field := by
  simp only [settledEntry, lateFields, List.mem_append, List.mem_map, List.mem_filter,
    decide_eq_true_eq, DeclaresField, Prod.exists, exists_eq_right]

end Registry

end Schemata
