import Schemata.Interface.Relation
import Schemata.Proofs.Naming

namespace Schemata

inductive Declaration
  | type (declaration : TypeDeclaration)
  | scalar (declaration : ScalarDeclaration)
  | enum (declaration : EnumDeclaration)
  | union (declaration : UnionDeclaration)

namespace Declaration

def name : Declaration → String
  | .type declaration => declaration.name
  | .scalar declaration => declaration.name
  | .enum declaration => declaration.name
  | .union declaration => declaration.name

def Sound : Declaration → Prop
  | .type declaration => declaration.kind = .object ∨ declaration.interfaces = []
  | .scalar _ | .enum _ | .union _ => True

end Declaration

def CatalogDraft.claim (draft : CatalogDraft) : Declaration → CatalogDraft
  | .type declaration => draft.addType declaration
  | .scalar declaration => draft.addScalar declaration
  | .enum declaration => draft.addEnum declaration
  | .union declaration => draft.addUnion declaration

def unionEntry (names : ElementNames) (union : UnionDeclaration) : UnionEntry :=
  { description := union.description
    members := union.members.map (·.resolve names)
    resolveType := union.resolveType }

def Catalog.gain (catalog : Catalog) : Declaration → Catalog
  | .type declaration =>
    let entry := CatalogDraft.entryOf catalog.elements declaration
    { catalog with types := Table.insert catalog.types declaration.name entry }
  | .scalar declaration =>
    { catalog with scalars := Table.insert catalog.scalars declaration.name declaration }
  | .enum declaration =>
    { catalog with enums := Table.insert catalog.enums declaration.name declaration }
  | .union declaration =>
    let entry := unionEntry catalog.elements declaration
    { catalog with unions := Table.insert catalog.unions declaration.name entry }

/-- Names that a catalog can gain, all of them. -/
structure Catalog.Fresh (catalog : Catalog) (names : List String) : Prop where
  nodup : names.Nodup
  free : ∀ name ∈ names, catalog.isTaken name = false

namespace Catalog

variable {catalog other : Catalog}

theorem Fresh.cons_iff {name : String} {names : List String} (hfree : catalog.isTaken name = false)
    (hp : other.names.Perm (name :: catalog.names)) :
    catalog.Fresh (name :: names) ↔ other.Fresh names := by
  have htaken (more : String) : other.isTaken more = false ↔
      more ≠ name ∧ catalog.isTaken more = false := by
    rw [isTaken_eq_false_iff, isTaken_eq_false_iff, hp.mem_iff, List.mem_cons, not_or]
    tauto
  constructor
  · rintro ⟨hn, hf⟩
    rw [List.nodup_cons] at hn
    rw [List.forall_mem_cons] at hf
    exact ⟨hn.2, fun more hm => (htaken more).mpr ⟨fun he => hn.1 (he ▸ hm), hf.2 more hm⟩⟩
  · rintro ⟨hn, hf⟩
    refine ⟨List.nodup_cons.mpr ⟨fun hm => ((htaken name).mp (hf name hm)).1 rfl, hn⟩, ?_⟩
    rw [List.forall_mem_cons]
    exact ⟨hfree, fun more hm => ((htaken more).mp (hf more hm)).2⟩

theorem names_gain (declaration : Declaration) (hnew : declaration.name ∉ catalog.names) :
    (catalog.gain declaration).names.Perm (declaration.name :: catalog.names) := by
  cases declaration with
  | type => exact names_insert_type hnew _
  | scalar => exact names_insert_scalar hnew _
  | enum => exact names_insert_enum hnew _
  | union => exact names_insert_union hnew _

end Catalog

inductive Attachment
  | field (late : TypeName × FieldDeclaration)
  | extension (edge : TypeName × TypeName)
  | implementation (edge : TypeName × TypeName)

namespace Attachment

def owner : Attachment → TypeName
  | .field late => late.1
  | .extension edge => edge.1
  | .implementation edge => edge.1

end Attachment

def CatalogDraft.attach (draft : CatalogDraft) : Attachment → CatalogDraft
  | .field late => draft.addField late
  | .extension edge => draft.addExtension edge
  | .implementation edge => draft.addImplementation edge

def CatalogDraft.replace (draft : CatalogDraft) (name : String) (entry : TypeEntry) :
    CatalogDraft :=
  { draft with catalog := draft.catalog.modifyType name fun _ => entry }

/-- A type with one thing more, if it can have that. -/
def TypeEntry.attach? (names : ElementNames) (entry : TypeEntry) : Attachment → Option TypeEntry
  | .field late => some { entry with fields := entry.fields ++ [late.2] }
  | .extension edge =>
    let parent := edge.2.resolve names
    match entry.parent with
    | none => some { entry with parent := some parent }
    | some existing => if existing = parent then some entry else none
  | .implementation edge =>
    if entry.kind = .object then
      some { entry with interfaces := mergeNames entry.interfaces [edge.2.resolve names] }
    else none

def TypeEntry.attachAll? (names : ElementNames) (entry : TypeEntry) (name : String)
    (attachments : List Attachment) : Option TypeEntry :=
  (attachments.filter fun attachment => decide (attachment.owner.resolve names = name)).foldlM
    (attach? names) entry

namespace TypeEntry

variable {names : ElementNames} {entry : TypeEntry} {name : String} {attachment : Attachment}
  {rest : List Attachment}

theorem attachAll?_cons_of_owner (h : attachment.owner.resolve names = name) :
    entry.attachAll? names name (attachment :: rest) =
      (entry.attach? names attachment).bind fun entry => entry.attachAll? names name rest := by
  rw [attachAll?, List.filter_cons, if_pos (decide_eq_true h)]
  rfl

theorem attachAll?_cons_of_ne (h : attachment.owner.resolve names ≠ name) :
    entry.attachAll? names name (attachment :: rest) = entry.attachAll? names name rest := by
  have hfalse : ¬decide (attachment.owner.resolve names = name) = true := by rwa [decide_eq_true_eq]
  rw [attachAll?, List.filter_cons, if_neg hfalse, attachAll?]

end TypeEntry

def Registry.declarations (registry : Registry) : List Declaration :=
  registry.types.map .type ++ (registry.scalars.map .scalar ++
    (registry.enums.map .enum ++ registry.unions.map .union))

def Registry.attachments (registry : Registry) : List Attachment :=
  registry.fields.map .field ++
    (registry.extensions.map .extension ++ registry.implementations.map .implementation)

/-- A registry takes effect in three steps. -/
theorem CatalogDraft.ofRegistry_eq (registry : Registry) :
    CatalogDraft.ofRegistry registry =
      registry.resolvers.foldl addResolver (registry.attachments.foldl attach
        (registry.declarations.foldl claim
          { catalog := { elements := registry.elementNames } })) := by
  simp only [Registry.attachments, Registry.declarations, List.foldl_append, List.foldl_map]
  rfl

namespace CatalogDraft

variable {draft : CatalogDraft}

theorem report_problems_ne_nil (problem : Problem) : (draft.report problem).problems ≠ [] :=
  List.concat_ne_nil problem draft.problems

/-- Under a free name a declaration gets its entry; wrong is then only what is wrong with it. -/
theorem claim_eq_reserve (draft : CatalogDraft) (declaration : Declaration) :
    ∃ add, draft.claim declaration = draft.reserve declaration.name add ∧
      (add draft).catalog = draft.catalog.gain declaration ∧
      ((add draft).problems = [] ↔ draft.problems = [] ∧ declaration.Sound) := by
  cases declaration with
  | type declaration =>
    rw [claim, addType, Declaration.name]
    refine ⟨_, rfl, rfl, ?_⟩
    rw [List.append_eq_nil_iff, Declaration.Sound, misplacedInterfaces]
    by_cases hk : declaration.kind = .object <;> simp [entryOf, hk]
  | scalar declaration =>
    rw [claim, addScalar, Declaration.name]
    exact ⟨_, rfl, rfl, (and_iff_left trivial).symm⟩
  | enum declaration =>
    rw [claim, addEnum, Declaration.name]
    exact ⟨_, rfl, rfl, (and_iff_left trivial).symm⟩
  | union declaration =>
    rw [claim, addUnion, Declaration.name]
    exact ⟨_, rfl, rfl, (and_iff_left trivial).symm⟩

theorem claim_of_taken {declaration : Declaration}
    (h : draft.catalog.isTaken declaration.name = true) :
    (draft.claim declaration).problems ≠ [] := by
  obtain ⟨add, hclaim, -, -⟩ := claim_eq_reserve draft declaration
  rw [hclaim, reserve, if_pos h]
  exact report_problems_ne_nil _

theorem claim_of_free {declaration : Declaration}
    (h : draft.catalog.isTaken declaration.name = false) :
    (draft.claim declaration).catalog = draft.catalog.gain declaration ∧
      ((draft.claim declaration).problems = [] ↔ draft.problems = [] ∧ declaration.Sound) := by
  obtain ⟨add, hclaim, hadd⟩ := claim_eq_reserve draft declaration
  rw [hclaim, reserve, if_neg (by rw [h]; exact Bool.false_ne_true)]
  exact hadd

/-- The names are claimed without a problem if all of them are free and distinct. -/
theorem foldl_claim (declarations : List Declaration) (draft : CatalogDraft) :
    ((declarations.foldl claim draft).problems = [] ↔
      draft.problems = [] ∧ (∀ declaration ∈ declarations, declaration.Sound) ∧
        draft.catalog.Fresh (declarations.map Declaration.name)) ∧
      (draft.catalog.Fresh (declarations.map Declaration.name) →
        (declarations.foldl claim draft).catalog =
          declarations.foldl Catalog.gain draft.catalog) := by
  induction declarations generalizing draft with
  | nil =>
    have hfresh : draft.catalog.Fresh [] := ⟨List.nodup_nil, by simp⟩
    exact ⟨by simp [hfresh], fun _ => rfl⟩
  | cons declaration rest ih =>
    obtain ⟨hproblems, hcatalog⟩ := ih (draft.claim declaration)
    rw [List.foldl_cons, List.foldl_cons, List.map_cons, List.forall_mem_cons]
    by_cases htaken : draft.catalog.isTaken declaration.name = true
    · have hnot : ¬draft.catalog.Fresh (declaration.name :: rest.map Declaration.name) := by
        intro hf
        rw [hf.free _ List.mem_cons_self] at htaken
        cases htaken
      refine ⟨⟨fun he => ?_, fun hf => absurd hf.2.2 hnot⟩, fun hf => absurd hf hnot⟩
      exact absurd (hproblems.mp he).1 (claim_of_taken htaken)
    · rw [Bool.not_eq_true] at htaken
      obtain ⟨hgain, hsound⟩ := claim_of_free htaken
      have hnames := Catalog.names_gain declaration (Catalog.isTaken_eq_false_iff.mp htaken).2
      rw [hgain] at hproblems hcatalog
      rw [hproblems, hsound, Catalog.Fresh.cons_iff htaken hnames]
      exact ⟨by tauto, hcatalog⟩

theorem keys_replace (name : String) (entry : TypeEntry) :
    Table.keys (draft.replace name entry).catalog.types = Table.keys draft.catalog.types :=
  Table.keys_modify _ _ _

theorem replace_eq_modifyType {name : String} {entry : TypeEntry}
    (h : draft.catalog.get? name = some entry) (change : TypeEntry → TypeEntry) :
    draft.replace name (change entry) =
      { draft with catalog := draft.catalog.modifyType name change } := by
  have htypes : Table.modify (fun _ => change entry) draft.catalog.types name =
      Table.modify change draft.catalog.types name := Table.modify_congr h rfl
  rw [replace, Catalog.modifyType, Catalog.modifyType, htypes]

theorem replace_self {name : String} {entry : TypeEntry}
    (h : draft.catalog.get? name = some entry) : draft.replace name entry = draft := by
  rw [replace, Catalog.modifyType, Table.modify_eq_self h]

/-- All that attaching can do: the owner gets one thing more, or there is a problem. -/
def Attaches (draft : CatalogDraft) (attachment : Attachment) : Prop :=
  (∃ entry added,
    draft.catalog.get? (attachment.owner.resolve draft.catalog.elements) = some entry ∧
    entry.attach? draft.catalog.elements attachment = some added ∧
    draft.attach attachment =
      draft.replace (attachment.owner.resolve draft.catalog.elements) added) ∨
  ((draft.catalog.get? (attachment.owner.resolve draft.catalog.elements)).bind
      (·.attach? draft.catalog.elements attachment) = none ∧
    ∃ problem, draft.attach attachment = draft.report problem)

theorem attaches_field (draft : CatalogDraft) (late : TypeName × FieldDeclaration) :
    draft.Attaches (.field late) := by
  simp only [Attaches, attach, addField, Attachment.owner, TypeEntry.attach?]
  cases hentry : draft.catalog.get? (late.1.resolve draft.catalog.elements) with
  | none => exact Or.inr ⟨rfl, _, rfl⟩
  | some entry => exact Or.inl ⟨entry, _, rfl, rfl, (replace_eq_modifyType hentry _).symm⟩

theorem attaches_extension (draft : CatalogDraft) (edge : TypeName × TypeName) :
    draft.Attaches (.extension edge) := by
  simp only [Attaches, attach, addExtension, Attachment.owner, TypeEntry.attach?]
  cases hentry : draft.catalog.get? (edge.1.resolve draft.catalog.elements) with
  | none => exact Or.inr ⟨rfl, _, rfl⟩
  | some entry =>
    cases hparent : entry.parent with
    | none =>
      refine Or.inl ⟨entry, _, rfl, by rw [hparent], ?_⟩
      simp only [hparent]
      exact (replace_eq_modifyType hentry fun entry => { entry with parent := some _ }).symm
    | some existing =>
      by_cases he : existing = edge.2.resolve draft.catalog.elements
      · refine Or.inl ⟨entry, entry, rfl, by simp only [hparent, if_pos he], ?_⟩
        simp only [hparent, if_pos he, replace_self hentry]
      · refine Or.inr ⟨by simp only [Option.bind_some, hparent, if_neg he], ?_⟩
        simp only [hparent, if_neg he]
        exact ⟨_, rfl⟩

theorem attaches_implementation (draft : CatalogDraft) (edge : TypeName × TypeName) :
    draft.Attaches (.implementation edge) := by
  simp only [Attaches, attach, addImplementation, Attachment.owner, TypeEntry.attach?]
  cases hentry : draft.catalog.get? (edge.1.resolve draft.catalog.elements) with
  | none => exact Or.inr ⟨rfl, _, rfl⟩
  | some entry =>
    by_cases hkind : entry.kind = .object
    · refine Or.inl ⟨entry, _, rfl, if_pos hkind, ?_⟩
      simp only [ne_eq, hkind, not_true_eq_false, if_false]
      by_cases hm : edge.2.resolve draft.catalog.elements ∈ entry.interfaces
      · have hmerged : mergeNames entry.interfaces [edge.2.resolve draft.catalog.elements] =
            entry.interfaces := if_pos hm
        simp only [if_pos hm, hmerged, ← hkind, replace_self hentry]
      · have hmerged : mergeNames entry.interfaces [edge.2.resolve draft.catalog.elements] =
            entry.interfaces ++ [edge.2.resolve draft.catalog.elements] := if_neg hm
        simp only [if_neg hm, hmerged, ← hkind]
        exact (replace_eq_modifyType hentry fun entry =>
          { entry with interfaces := entry.interfaces ++ [_] }).symm
    · refine Or.inr ⟨by simp only [Option.bind_some, if_neg hkind], ?_⟩
      simp only [ne_eq, hkind, not_false_eq_true, if_true]
      exact ⟨_, rfl⟩

theorem attaches (draft : CatalogDraft) (attachment : Attachment) : draft.Attaches attachment := by
  cases attachment with
  | field late => exact attaches_field draft late
  | extension edge => exact attaches_extension draft edge
  | implementation edge => exact attaches_implementation draft edge

theorem problems_of_foldl_attach {attachments : List Attachment}
    (h : (attachments.foldl attach draft).problems = []) : draft.problems = [] := by
  induction attachments generalizing draft with
  | nil => exact h
  | cons attachment rest ih =>
    have hattach := ih h
    rcases attaches draft attachment with ⟨_, _, _, _, he⟩ | ⟨_, problem, he⟩
    · rwa [he] at hattach
    · rw [he] at hattach
      exact absurd hattach (report_problems_ne_nil problem)

/-- What is left to attach to a type is attached to what the type has become. -/
theorem attachAll?_attached (hn : (Table.keys draft.catalog.types).Nodup) {owner : String}
    {entry added : TypeEntry} {attachment : Attachment} (rest : List Attachment)
    (howner : attachment.owner.resolve draft.catalog.elements = owner)
    (hentry : draft.catalog.get? owner = some entry)
    (hadded : entry.attach? draft.catalog.elements attachment = some added)
    {type : String × TypeEntry} (htype : type ∈ draft.catalog.types) :
    (if type.1 = owner then added else type.2).attachAll? draft.catalog.elements type.1 rest =
      type.2.attachAll? draft.catalog.elements type.1 (attachment :: rest) := by
  split
  next hsame =>
    have hget := Table.get?_of_mem hn htype
    rw [hsame] at hget
    obtain rfl := Option.some.inj (hentry.symm.trans hget)
    rw [TypeEntry.attachAll?_cons_of_owner (howner.trans hsame.symm), hadded]
    rfl
  next hother =>
    have hne : attachment.owner.resolve draft.catalog.elements ≠ type.1 := by
      rw [howner]
      exact Ne.symm hother
    rw [TypeEntry.attachAll?_cons_of_ne hne]

/-- An attachment with a problem has no declared owner, or its owner cannot have it. -/
theorem not_attachAll?_of_none {attachment : Attachment} (rest : List Attachment)
    (hnone : (draft.catalog.get? (attachment.owner.resolve draft.catalog.elements)).bind
      (·.attach? draft.catalog.elements attachment) = none)
    (hdeclared : attachment.owner.resolve draft.catalog.elements ∈ Table.keys draft.catalog.types) :
    ¬∀ type ∈ draft.catalog.types, ∃ entry,
      type.2.attachAll? draft.catalog.elements type.1 (attachment :: rest) = some entry := by
  intro hall
  obtain ⟨entry, hentry⟩ := Table.exists_get?_of_mem_keys hdeclared
  obtain ⟨settled, hsettled⟩ := hall _ (Table.mem_of_get? hentry)
  have hattach : entry.attach? draft.catalog.elements attachment = none := by
    rwa [Catalog.get?, hentry, Option.bind_some] at hnone
  rw [TypeEntry.attachAll?_cons_of_owner rfl, hattach] at hsettled
  cases hsettled

/-- Attaching passes if every owner is declared and can have all that is attached to it. -/
theorem foldl_attach (attachments : List Attachment) {draft : CatalogDraft}
    (hn : (Table.keys draft.catalog.types).Nodup) :
    ((attachments.foldl attach draft).problems = [] ↔ draft.problems = [] ∧
      (∀ attachment ∈ attachments,
        attachment.owner.resolve draft.catalog.elements ∈ Table.keys draft.catalog.types) ∧
      ∀ type ∈ draft.catalog.types, ∃ entry,
        type.2.attachAll? draft.catalog.elements type.1 attachments = some entry) ∧
    ((attachments.foldl attach draft).problems = [] →
      (attachments.foldl attach draft).catalog =
        { draft.catalog with types := draft.catalog.types.filterMap fun type =>
          (type.2.attachAll? draft.catalog.elements type.1 attachments).map (type.1, ·) }) := by
  induction attachments generalizing draft with
  | nil =>
    have htypes : draft.catalog.types.filterMap (fun type =>
        (type.2.attachAll? draft.catalog.elements type.1 []).map (type.1, ·)) =
          draft.catalog.types := List.filterMap_some
    rw [htypes]
    exact ⟨⟨fun h => ⟨h, by simp, fun type _ => ⟨type.2, rfl⟩⟩, And.left⟩, fun _ => rfl⟩
  | cons attachment rest ih =>
    rw [List.foldl_cons, List.forall_mem_cons]
    rcases attaches draft attachment with ⟨entry, added, hentry, hadded, he⟩ | ⟨hnone, problem, he⟩
    · have hstep (type : String × TypeEntry) (htype : type ∈ draft.catalog.types) :=
        attachAll?_attached hn rest rfl hentry hadded htype
      have htypes : (draft.replace (attachment.owner.resolve draft.catalog.elements)
          added).catalog.types = draft.catalog.types.map fun type => (type.1,
            if type.1 = attachment.owner.resolve draft.catalog.elements then added else type.2) :=
        Table.modify_eq_map hn _ _
      have hkeys : (Table.keys (draft.replace (attachment.owner.resolve draft.catalog.elements)
          added).catalog.types).Nodup := by rwa [keys_replace]
      obtain ⟨hproblems, hcatalog⟩ := ih hkeys
      rw [keys_replace, htypes, List.forall_mem_map] at hproblems
      rw [htypes, List.filterMap_map] at hcatalog
      rw [he]
      refine ⟨hproblems.trans (and_congr_right fun _ => ?_), fun h => (hcatalog h).trans ?_⟩
      · rw [and_iff_right (Table.mem_keys_of_get? hentry)]
        refine and_congr_right fun _ => forall₂_congr fun type htype => ?_
        rw [← hstep type htype]
        rfl
      · have hmap : draft.catalog.types.filterMap (fun type => (type.2.attachAll?
            draft.catalog.elements type.1 (attachment :: rest)).map (type.1, ·)) =
          draft.catalog.types.filterMap fun type =>
            ((if type.1 = attachment.owner.resolve draft.catalog.elements then added
              else type.2).attachAll? draft.catalog.elements type.1 rest).map (type.1, ·) :=
          List.filterMap_congr fun type htype => by rw [hstep type htype]
        rw [hmap]
        rfl
    · -- A problem stays, so neither side of the equivalence holds.
      have hfinal : (rest.foldl attach (draft.attach attachment)).problems ≠ [] := by
        intro h
        have hattach := problems_of_foldl_attach h
        rw [he] at hattach
        exact report_problems_ne_nil problem hattach
      refine ⟨⟨fun h => absurd h hfinal, ?_⟩, fun h => absurd h hfinal⟩
      rintro ⟨-, ⟨hdeclared, -⟩, hall⟩
      exact absurd hall (not_attachAll?_of_none rest hnone hdeclared)

end CatalogDraft

end Schemata
