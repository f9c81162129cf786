import Schemata.Interface.Relation
import Schemata.Proofs.Draft

namespace Schemata

namespace Registry

/-- The fields registered for a type after its declaration. -/
def lateFields (registry : Registry) (name : String) : List FieldDeclaration :=
  (registry.fields.filter fun late =>
    decide (late.1.resolve registry.elementNames = name)).map Prod.snd

def targets (registry : Registry) (edges : List (TypeName × TypeName)) (name : String) :
    List String :=
  (edges.filter fun edge => decide (edge.1.resolve registry.elementNames = name)).map fun edge =>
    edge.2.resolve registry.elementNames

def parents (registry : Registry) (declaration : TypeDeclaration) : List String :=
  (declaration.parent.map (·.resolve registry.elementNames)).toList ++
    registry.targets registry.extensions declaration.name

/-- A declared type with all that was registered for it. -/
def settledEntry (registry : Registry) (declaration : TypeDeclaration) : TypeEntry :=
  { CatalogDraft.entryOf registry.elementNames declaration with
    fields := declaration.fields ++ registry.lateFields declaration.name
    parent := (registry.parents declaration).head?
    interfaces := mergeNames (declaration.interfaces.map (·.resolve registry.elementNames))
      (registry.targets registry.implementations declaration.name) }

def declaredCatalog (registry : Registry) : Catalog :=
  { elements := registry.elementNames
    types := registry.types.map fun type =>
      (type.name, CatalogDraft.entryOf registry.elementNames type)
    scalars := registry.scalars.map fun scalar => (scalar.name, scalar)
    enums := registry.enums.map fun enum => (enum.name, enum)
    unions := registry.unions.map fun union =>
      (union.name, unionEntry registry.elementNames union) }

/-- The declarations with all that was registered for them. -/
def settledCatalog (registry : Registry) : Catalog :=
  { registry.declaredCatalog with
    types := registry.types.map fun type => (type.name, registry.settledEntry type)
    resolvers := registry.resolvers.map fun resolver =>
      ⟨resolver.1.resolve registry.elementNames, resolver.2⟩ }

def Declares (registry : Registry) (name : TypeName) : Prop :=
  name.resolve registry.elementNames ∈ registry.types.map TypeDeclaration.name

/-- A registry in which nothing is wrong with a name or an edge. -/
structure Accepted (registry : Registry) : Prop where
  nodup : (registry.declarations.map Declaration.name).Nodup
  not_builtin : ∀ declaration ∈ registry.declarations, isBuiltinScalar declaration.name = false
  implementing : ∀ declaration ∈ registry.types, declaration.kind = .object ∨
    declaration.interfaces = [] ∧ registry.targets registry.implementations declaration.name = []
  parent : ∀ declaration ∈ registry.types, ∀ parent ∈ registry.parents declaration,
    ∀ other ∈ registry.parents declaration, parent = other
  owners : ∀ late ∈ registry.fields, registry.Declares late.1
  extending : ∀ edge ∈ registry.extensions, registry.Declares edge.1
  implementers : ∀ edge ∈ registry.implementations, registry.Declares edge.1

end Registry

namespace Catalog

section Gain

variable {catalog : Catalog}

theorem foldl_gain_type {types : List TypeDeclaration}
    (hn : (types.map TypeDeclaration.name).Nodup) (hnone : catalog.types = []) :
    types.foldl (fun catalog type => catalog.gain (.type type)) catalog =
      { catalog with types := types.map fun type =>
          (type.name, CatalogDraft.entryOf catalog.elements type) } :=
  Table.foldl_within (fun types => ({ catalog with types := types } : Catalog))
    (CatalogDraft.entryOf catalog.elements) (fun _ _ => rfl) hn (by rw [← hnone])

theorem foldl_gain_scalar {scalars : List ScalarDeclaration}
    (hn : (scalars.map ScalarDeclaration.name).Nodup) (hnone : catalog.scalars = []) :
    scalars.foldl (fun catalog scalar => catalog.gain (.scalar scalar)) catalog =
      { catalog with scalars := scalars.map fun scalar => (scalar.name, scalar) } :=
  Table.foldl_within (fun scalars => ({ catalog with scalars := scalars } : Catalog)) id
    (fun _ _ => rfl) hn (by rw [← hnone])

theorem foldl_gain_enum {enums : List EnumDeclaration}
    (hn : (enums.map EnumDeclaration.name).Nodup) (hnone : catalog.enums = []) :
    enums.foldl (fun catalog enum => catalog.gain (.enum enum)) catalog =
      { catalog with enums := enums.map fun enum => (enum.name, enum) } :=
  Table.foldl_within (fun enums => ({ catalog with enums := enums } : Catalog)) id
    (fun _ _ => rfl) hn (by rw [← hnone])

theorem foldl_gain_union {unions : List UnionDeclaration}
    (hn : (unions.map UnionDeclaration.name).Nodup) (hnone : catalog.unions = []) :
    unions.foldl (fun catalog union => catalog.gain (.union union)) catalog =
      { catalog with unions := unions.map fun union =>
          (union.name, unionEntry catalog.elements union) } :=
  Table.foldl_within (fun unions => ({ catalog with unions := unions } : Catalog))
    (unionEntry catalog.elements) (fun _ _ => rfl) hn (by rw [← hnone])

end Gain

/-- Each kind of declaration has a table of its own. -/
theorem foldl_gain {registry : Registry} (hn : (registry.declarations.map Declaration.name).Nodup) :
    registry.declarations.foldl gain { elements := registry.elementNames } =
      registry.declaredCatalog := by
  simp only [Registry.declarations, List.map_append, List.map_map, List.nodup_append] at hn
  obtain ⟨htypes, ⟨hscalars, ⟨henums, hunions, -⟩, -⟩, -⟩ := hn
  simp only [Registry.declarations, List.foldl_append, List.foldl_map]
  rw [foldl_gain_type htypes rfl, foldl_gain_scalar hscalars rfl, foldl_gain_enum henums rfl,
    foldl_gain_union hunions rfl]
  rfl

end Catalog

namespace TypeEntry

variable {names : ElementNames} {entry settled : TypeEntry}

theorem attach?_fields (late : List (TypeName × FieldDeclaration)) (entry : TypeEntry) :
    (late.map .field).foldlM (attach? names) entry =
      some { entry with fields := entry.fields ++ late.map Prod.snd } := by
  induction late generalizing entry with
  | nil => simp
  | cons first rest ih =>
    rw [List.map_cons, List.foldlM_cons]
    exact (ih _).trans (by rw [List.append_assoc]; rfl)

/-- Of all the parents that a type is given no two may differ. -/
theorem attach?_extensions {edges : List (TypeName × TypeName)} :
    (edges.map .extension).foldlM (attach? names) entry = some settled ↔
      (∀ parent ∈ entry.parent.toList ++ edges.map (·.2.resolve names),
        ∀ other ∈ entry.parent.toList ++ edges.map (·.2.resolve names), parent = other) ∧
      settled =
        { entry with parent := (entry.parent.toList ++ edges.map (·.2.resolve names)).head? } := by
  induction edges generalizing entry with
  | nil =>
    have hhead : entry.parent.toList.head? = entry.parent := by cases entry.parent <;> rfl
    have hall : ∀ parent ∈ entry.parent.toList, ∀ other ∈ entry.parent.toList, parent = other := by
      cases entry.parent <;> simp
    simp only [List.map_nil, List.append_nil, hhead, and_iff_right hall]
    exact Option.some_inj.trans eq_comm
  | cons edge rest ih =>
    rw [List.map_cons, List.foldlM_cons, attach?, List.map_cons]
    cases hparent : entry.parent with
    | none => exact ih
    | some existing =>
      by_cases he : existing = edge.2.resolve names
      · simp only [if_pos he]
        rw [Option.bind_eq_bind, Option.bind_some, ih, hparent, ← he]
        simp
      · simp only [if_neg he]
        constructor
        · intro h
          cases h
        · intro h
          exact absurd (h.1 existing (by simp) (edge.2.resolve names) (by simp)) he

theorem attach?_implementations {edges : List (TypeName × TypeName)} :
    (edges.map .implementation).foldlM (attach? names) entry = some settled ↔
      (entry.kind = .object ∨ edges = []) ∧
      settled = { entry with
        interfaces := mergeNames entry.interfaces (edges.map (·.2.resolve names)) } := by
  by_cases hkind : entry.kind = .object
  · rw [and_iff_right (Or.inl hkind)]
    induction edges generalizing entry with
    | nil => exact Option.some_inj.trans eq_comm
    | cons edge rest ih =>
      rw [List.map_cons, List.foldlM_cons, attach?, if_pos hkind]
      exact ih hkind
  · cases edges with
    | nil =>
      rw [and_iff_right (Or.inr rfl)]
      exact Option.some_inj.trans eq_comm
    | cons edge rest =>
      rw [List.map_cons, List.foldlM_cons, attach?, if_neg hkind]
      constructor
      · intro h
        cases h
      · intro h
        simp [hkind] at h

end TypeEntry

/-- A declared type can have all that is registered for it if its parents agree and only objects
implement interfaces, and then it ends up with just that. -/
theorem Registry.attachAll?_attachments {registry : Registry} {declaration : TypeDeclaration}
    {settled : TypeEntry} :
    (CatalogDraft.entryOf registry.elementNames declaration).attachAll? registry.elementNames
        declaration.name registry.attachments = some settled ↔
      (∀ parent ∈ registry.parents declaration, ∀ other ∈ registry.parents declaration,
        parent = other) ∧
      (declaration.kind = .object ∨
        registry.targets registry.implementations declaration.name = []) ∧
      settled = registry.settledEntry declaration := by
  simp only [TypeEntry.attachAll?, Registry.attachments, List.filter_append, List.filter_map,
    List.foldlM_append, TypeEntry.attach?_fields, Option.bind_eq_bind, Option.bind_some,
    Option.bind_eq_some_iff, TypeEntry.attach?_extensions, TypeEntry.attach?_implementations]
  rw [Registry.targets, List.map_eq_nil_iff]
  constructor
  · rintro ⟨extended, ⟨hparents, rfl⟩, hkind, rfl⟩
    exact ⟨hparents, hkind, rfl⟩
  · rintro ⟨hparents, hkind, rfl⟩
    exact ⟨_, ⟨hparents, rfl⟩, hkind, rfl⟩

namespace CatalogDraft

theorem claim_wellNamed {draft : CatalogDraft} (h : draft.catalog.WellNamed)
    (declaration : Declaration) : (draft.claim declaration).catalog.WellNamed := by
  cases declaration with
  | type declaration => exact addType_wellNamed h declaration
  | scalar declaration => exact addScalar_wellNamed h declaration
  | enum declaration => exact addEnum_wellNamed h declaration
  | union declaration => exact addUnion_wellNamed h declaration

theorem foldl_addResolver (resolvers : List (TypeName × ResolverMethod)) (draft : CatalogDraft) :
    resolvers.foldl addResolver draft =
      { draft with catalog := { draft.catalog with
          resolvers := draft.catalog.resolvers ++ resolvers.map fun resolver =>
            ⟨resolver.1.resolve draft.catalog.elements, resolver.2⟩ } } := by
  induction resolvers generalizing draft with
  | nil => simp
  | cons resolver rest ih =>
    rw [List.foldl_cons, ih, addResolver, List.map_cons, List.append_assoc]
    rfl

end CatalogDraft

theorem Catalog.fresh_start_iff {names : List String} {elements : ElementNames} :
    ({ elements := elements } : Catalog).Fresh names ↔
      names.Nodup ∧ ∀ name ∈ names, isBuiltinScalar name = false := by
  have htaken (name : String) :
      ({ elements := elements } : Catalog).isTaken name = isBuiltinScalar name := by
    simp [isTaken, Table.contains]
  simp only [← htaken]
  exact ⟨fun h => ⟨h.nodup, h.free⟩, fun h => ⟨h.1, h.2⟩⟩

namespace Registry

variable {registry : Registry}

theorem forall_mem_declarations_iff {p : Declaration → Prop} :
    (∀ declaration ∈ registry.declarations, p declaration) ↔
      (∀ type ∈ registry.types, p (.type type)) ∧
        (∀ scalar ∈ registry.scalars, p (.scalar scalar)) ∧
          (∀ enum ∈ registry.enums, p (.enum enum)) ∧
            ∀ union ∈ registry.unions, p (.union union) := by
  simp only [declarations, List.forall_mem_append, List.forall_mem_map]

theorem forall_mem_attachments_iff {p : Attachment → Prop} :
    (∀ attachment ∈ registry.attachments, p attachment) ↔
      (∀ late ∈ registry.fields, p (.field late)) ∧
        (∀ edge ∈ registry.extensions, p (.extension edge)) ∧
          ∀ edge ∈ registry.implementations, p (.implementation edge) := by
  simp only [attachments, List.forall_mem_append, List.forall_mem_map]

theorem forall_sound_iff :
    (∀ declaration ∈ registry.declarations, declaration.Sound) ↔
      ∀ type ∈ registry.types, type.kind = .object ∨ type.interfaces = [] := by
  simp [forall_mem_declarations_iff, Declaration.Sound]

theorem keys_declaredCatalog :
    Table.keys registry.declaredCatalog.types = registry.types.map TypeDeclaration.name := by
  simp only [declaredCatalog, Table.keys, List.map_map, Function.comp_def]

/-- An accepted registry is one whose names are fresh and whose attachments all pass. -/
theorem accepted_iff :
    registry.Accepted ↔
      (∀ declaration ∈ registry.declarations, declaration.Sound) ∧
      ((registry.declarations.map Declaration.name).Nodup ∧
        ∀ declaration ∈ registry.declarations, isBuiltinScalar declaration.name = false) ∧
      (∀ attachment ∈ registry.attachments, registry.Declares attachment.owner) ∧
      ∀ type ∈ registry.types, ∃ entry,
        (CatalogDraft.entryOf registry.elementNames type).attachAll? registry.elementNames type.name
          registry.attachments = some entry := by
  simp only [forall_sound_iff, forall_mem_attachments_iff, attachAll?_attachments, exists_and_left,
    exists_eq, and_true]
  constructor
  · rintro ⟨hn, hbuiltin, himplementing, hparent, howners, hextending, himplementers⟩
    refine ⟨fun type ht => (himplementing type ht).imp_right And.left, ⟨hn, hbuiltin⟩,
      ⟨howners, hextending, himplementers⟩, fun type ht => ⟨hparent type ht, ?_⟩⟩
    exact (himplementing type ht).imp_right And.right
  · rintro ⟨hsound, ⟨hn, hbuiltin⟩, ⟨howners, hextending, himplementers⟩, hsettle⟩
    refine ⟨hn, hbuiltin, fun type ht => ?_, fun type ht => (hsettle type ht).1, howners,
      hextending, himplementers⟩
    rcases hsound type ht with hkind | hnone
    · exact Or.inl hkind
    · exact (hsettle type ht).2.imp_right (And.intro hnone)

/-- Settling the declared types attaches to each what is registered for it. -/
theorem Accepted.settledCatalog_eq (h : registry.Accepted) :
    registry.settledCatalog = { registry.declaredCatalog with
      types := registry.declaredCatalog.types.filterMap fun type =>
        (type.2.attachAll? registry.elementNames type.1 registry.attachments).map (type.1, ·)
      resolvers := registry.resolvers.map fun resolver =>
        ⟨resolver.1.resolve registry.elementNames, resolver.2⟩ } := by
  obtain ⟨-, -, -, hall⟩ := accepted_iff.mp h
  have htypes : registry.declaredCatalog.types.filterMap (fun type =>
      (type.2.attachAll? registry.elementNames type.1 registry.attachments).map (type.1, ·)) =
        registry.types.map fun type => (type.name, registry.settledEntry type) := by
    rw [declaredCatalog, List.filterMap_map, ← List.filterMap_eq_map]
    apply List.filterMap_congr
    intro type ht
    obtain ⟨entry, hentry⟩ := hall type ht
    obtain ⟨-, -, rfl⟩ := attachAll?_attachments.mp hentry
    exact congrArg (Option.map (type.name, ·)) hentry
  rw [htypes]
  rfl

end Registry

/-- A registry is accepted if nothing is wrong with a name or an edge, and then its catalog holds
each declaration, settled. -/
theorem Catalog.ofRegistry_eq_ok_iff {registry : Registry} {catalog : Catalog} :
    Catalog.ofRegistry registry = .ok catalog ↔
      registry.Accepted ∧ catalog = registry.settledCatalog := by
  rw [Catalog.ofRegistry, unlessProblems_eq_ok_iff, CatalogDraft.ofRegistry_eq,
    CatalogDraft.foldl_addResolver]
  have hnamed : (registry.declarations.foldl CatalogDraft.claim
      { catalog := { elements := registry.elementNames } }).catalog.WellNamed :=
    CatalogDraft.foldl_wellNamed CatalogDraft.claim_wellNamed (.empty _) _
  obtain ⟨hclaimed, hgained⟩ := CatalogDraft.foldl_claim registry.declarations
    { catalog := { elements := registry.elementNames } }
  obtain ⟨hattached, hsettled⟩ := CatalogDraft.foldl_attach registry.attachments hnamed.types_nodup
  rw [fresh_start_iff, List.forall_mem_map] at hclaimed hgained
  generalize registry.declarations.foldl CatalogDraft.claim
    { catalog := { elements := registry.elementNames } } = claimed at *
  have hproblems : (registry.attachments.foldl CatalogDraft.attach claimed).problems = [] ↔
      registry.Accepted := by
    rw [hattached, hclaimed, Registry.accepted_iff]
    constructor
    · rintro ⟨⟨-, hsound, hfresh⟩, howners, hall⟩
      rw [hgained hfresh, foldl_gain hfresh.1] at howners hall
      rw [Registry.keys_declaredCatalog] at howners
      rw [Registry.declaredCatalog, List.forall_mem_map] at hall
      exact ⟨hsound, hfresh, howners, hall⟩
    · rintro ⟨hsound, hfresh, howners, hall⟩
      rw [hgained hfresh, foldl_gain hfresh.1, Registry.keys_declaredCatalog]
      refine ⟨⟨rfl, hsound, hfresh⟩, howners, ?_⟩
      rw [Registry.declaredCatalog, List.forall_mem_map]
      exact hall
  rw [hproblems]
  refine and_congr_right fun haccepted => ?_
  have hcatalog := hsettled (hproblems.mpr haccepted)
  obtain ⟨-, hfresh, -, -⟩ := Registry.accepted_iff.mp haccepted
  rw [hgained hfresh, foldl_gain hfresh.1] at hcatalog
  rw [hcatalog, haccepted.settledCatalog_eq]
  exact eq_comm

end Schemata
