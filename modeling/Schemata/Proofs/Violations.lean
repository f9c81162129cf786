import Schemata.Proofs.Analysis

namespace Schemata

/-- Objects, and so their ancestors, name only declared interfaces in their clauses. -/
def Catalog.ImplementsDeclared (catalog : Catalog) : Prop :=
  ∀ type ∈ catalog.typesOfKind .object, ∀ interface ∈ type.2.interfaces,
    interface ∈ Table.keys (catalog.typesOfKind .interface)

instance (catalog : Catalog) : Decidable catalog.ImplementsDeclared :=
  inferInstanceAs (Decidable (∀ type ∈ catalog.typesOfKind .object, ∀ interface ∈ type.2.interfaces,
    interface ∈ Table.keys (catalog.typesOfKind .interface)))

namespace Requirement

variable {catalog : Catalog} {effective : Table FieldSet}

inductive Mismatched (expected found : Table Signature) (argument : String) :
    ArgumentMismatch → Prop
  | missing {type : Signature} (asked : Table.get? expected argument = some type)
      (lacked : argument ∉ Table.keys found) : Mismatched expected found argument (.missing type)
  | differs {type other : Signature} (asked : Table.get? expected argument = some type)
      (taken : Table.get? found argument = some other) (unlike : other ≠ type) :
      Mismatched expected found argument (.differs type other)
  | mustBeNullable {type : Signature} (taken : Table.get? found argument = some type)
      (additional : argument ∉ Table.keys expected) (required : type.isNonNull = true) :
      Mismatched expected found argument (.mustBeNullable type)

structure ArgumentReport (expected found : Table Signature)
    (report : Table ArgumentMismatch) : Prop where
  exact : ∀ argument mismatch,
    (argument, mismatch) ∈ report ↔ Mismatched expected found argument mismatch
  once : (Table.keys report).Nodup
  /-- The expected arguments come first. -/
  ordered : (Table.keys report).Sublist
    (Table.keys expected ++ (Table.keys found).filter (· ∉ Table.keys expected))

theorem mem_argumentMismatches {expected found : Table Signature}
    (hexpected : (Table.keys expected).Nodup) (hfound : (Table.keys found).Nodup)
    {argument : String} {mismatch : ArgumentMismatch} :
    (argument, mismatch) ∈ argumentMismatches expected found ↔
      Mismatched expected found argument mismatch := by
  simp only [argumentMismatches, List.mem_append, List.mem_filterMap, Prod.exists]
  constructor
  · rintro (⟨name, type, hasked, htold⟩ | ⟨name, type, htaken, htold⟩)
    · have hasked := Table.get?_of_mem hexpected hasked
      split at htold
      next hnone =>
        cases htold
        exact .missing hasked ((Table.get?_eq_none_iff _ _).mp hnone)
      next other hother =>
        split at htold
        next => cases htold
        next hne =>
          cases htold
          exact .differs hasked hother hne
    · split at htold
      next hextra =>
        cases htold
        rw [Bool.and_eq_true, Bool.not_eq_true', Table.contains_eq_false_iff] at hextra
        exact .mustBeNullable (Table.get?_of_mem hfound htaken) hextra.1 hextra.2
      next => cases htold
  · rintro (⟨hasked, hlacked⟩ | ⟨hasked, htaken, hne⟩ | ⟨htaken, hextra, hrequired⟩)
    · refine Or.inl ⟨_, _, Table.mem_of_get? hasked, ?_⟩
      rw [(Table.get?_eq_none_iff _ _).mpr hlacked]
    · refine Or.inl ⟨_, _, Table.mem_of_get? hasked, ?_⟩
      rw [htaken]
      exact if_neg hne
    · refine Or.inr ⟨_, _, Table.mem_of_get? htaken, ?_⟩
      rw [Table.contains_eq_false_iff.mpr hextra, hrequired]
      rfl

theorem argumentMismatches_ordered (expected found : Table Signature) :
    (Table.keys (argumentMismatches expected found)).Sublist
      (Table.keys expected ++ (Table.keys found).filter (· ∉ Table.keys expected)) := by
  rw [argumentMismatches, Table.keys_append]
  apply List.Sublist.append
  · refine (Table.keys_filterMap_sublist (p := fun _ => true) ?_).trans List.filter_sublist
    rintro ⟨argument, type⟩ kept hkept
    dsimp only at hkept
    split at hkept
    next => cases hkept; exact ⟨rfl, rfl⟩
    next =>
      split at hkept
      next => cases hkept
      next => cases hkept; exact ⟨rfl, rfl⟩
  · apply Table.keys_filterMap_sublist
    rintro ⟨argument, type⟩ kept hkept
    dsimp only at hkept
    split at hkept
    next hextra =>
      cases hkept
      rw [Bool.and_eq_true, Bool.not_eq_true', Table.contains_eq_false_iff] at hextra
      exact ⟨rfl, decide_eq_true hextra.1⟩
    next => cases hkept

theorem argumentReport {expected found : Table Signature}
    (hexpected : (Table.keys expected).Nodup) (hfound : (Table.keys found).Nodup) :
    ArgumentReport expected found (argumentMismatches expected found) := by
  have hordered := argumentMismatches_ordered expected found
  refine ⟨fun argument mismatch => mem_argumentMismatches hexpected hfound, ?_, hordered⟩
  apply List.Nodup.sublist hordered
  rw [List.nodup_append]
  refine ⟨hexpected, hfound.filter _, ?_⟩
  rintro argument hasked other hextra rfl
  exact of_decide_eq_true (List.mem_filter.mp hextra).2 hasked

theorem nodup_argumentTypes (field : FieldDeclaration) :
    (Table.keys (argumentTypes catalog effective field)).Nodup := by
  rw [argumentTypes]
  induction field.sources using List.reverseRecOn with
  | nil => exact List.nodup_nil
  | append_singleton sources source ih =>
    rw [List.foldl_concat]
    exact Table.nodup_keys_insertAll ih _

/-- The fields of a name that interfaces have to offer, in the order of the interfaces. -/
def offers (effective : Table FieldSet) (interfaces : List String) (name : String) :
    List SeenField :=
  interfaces.filterMap fun interface =>
    (Table.get? effective interface).bind fun fields => Table.get? fields name

/-- The first field of the longest final run of fields that have one type. -/
def LeadsFinalRun (catalog : Catalog) (offered : List SeenField) (leader : SeenField) : Prop :=
  ∃ before rest, offered = before ++ leader :: rest ∧
    (∀ field ∈ rest, signatureOf catalog field.declaration = signatureOf catalog leader.declaration) ∧
    ∀ field ∈ before.getLast?,
      signatureOf catalog field.declaration ≠ signatureOf catalog leader.declaration

/-- The field that is held against the required ones of its name: the object's own, or else one
that the interfaces supply. -/
inductive StandsFor (catalog : Catalog) (effective : Table FieldSet) (inherit : Bool)
    (interfaces : List String) (own : FieldSet) (name : String) : SeenField → Prop
  | own {candidate : SeenField} (owned : Table.get? own name = some candidate) :
      StandsFor catalog effective inherit interfaces own name candidate
  | supplied {candidate : SeenField} (lacked : name ∉ Table.keys own) (allowed : inherit = true)
      (leads : LeadsFinalRun catalog (offers effective interfaces name) candidate)
      (typed : ∀ last ∈ (offers effective interfaces name).getLast?,
        signatureOf catalog candidate.declaration = signatureOf catalog last.declaration) :
      StandsFor catalog effective inherit interfaces own name candidate

/-- The leader has the type of the last field. -/
theorem LeadsFinalRun.signature_last {offered : List SeenField} {leader : SeenField}
    (h : LeadsFinalRun catalog offered leader) : ∀ last ∈ offered.getLast?,
      signatureOf catalog leader.declaration = signatureOf catalog last.declaration := by
  obtain ⟨before, rest, rfl, halike, -⟩ := h
  intro last hlast
  rw [List.getLast?_append_cons] at hlast
  rcases List.mem_cons.mp (List.mem_of_getLast? hlast) with rfl | hm
  · rfl
  · exact (halike last hm).symm

inductive Supplied (catalog : Catalog) : List SeenField → Option SeenField → Prop
  | none : Supplied catalog [] none
  | some {offered : List SeenField} {leader : SeenField}
      (leads : LeadsFinalRun catalog offered leader) : Supplied catalog offered (some leader)

/-- One more offer continues the final run or starts a new one. -/
theorem Supplied.offer {offered : List SeenField} {own supplied : FieldSet} {name : String}
    (h : Supplied catalog offered (Table.get? supplied name)) (hlacked : name ∉ Table.keys own)
    (required : SeenField) :
    Supplied catalog (offered ++ [required])
      (Table.get? (Requirement.offer catalog own supplied name required) name) := by
  rw [Requirement.offer, Table.contains_eq_false_iff.mpr hlacked, if_neg Bool.false_ne_true]
  generalize hpresent : Table.get? supplied name = present at h
  cases h with
  | none =>
    rw [Table.get?_insert, if_pos rfl]
    exact .some ⟨[], [], rfl, by simp, by simp⟩
  | @some offered leader hleads =>
    dsimp only
    split
    next halike =>
      obtain ⟨before, rest, rfl, hrest, hbefore⟩ := hleads
      rw [hpresent]
      refine .some ⟨before, rest ++ [required], by simp, ?_, hbefore⟩
      rw [List.forall_mem_append, List.forall_mem_singleton]
      exact ⟨hrest, halike.symm⟩
    next hunlike =>
      rw [Table.get?_insert, if_pos rfl]
      refine .some ⟨offered, [], rfl, by simp, fun last hlast => ?_⟩
      rw [← hleads.signature_last last hlast]
      exact hunlike

theorem get?_offer_of_ne {own supplied : FieldSet} {name other : String} (h : name ≠ other)
    (required : SeenField) :
    Table.get? (offer catalog own supplied name required) other = Table.get? supplied other := by
  rcases offer_cases catalog own supplied name required with ⟨he, -⟩ | ⟨-, he⟩
  · rw [he]
  · rw [he, Table.get?_insert, if_neg h]

theorem get?_foldl_offer_of_notMem {own supplied : FieldSet} {fields : FieldSet} {name : String}
    (h : name ∉ Table.keys fields) :
    Table.get? (fields.foldl (fun supplied entry => offer catalog own supplied entry.1 entry.2)
      supplied) name = Table.get? supplied name := by
  induction fields generalizing supplied with
  | nil => rfl
  | cons entry rest ih =>
    rw [Table.keys_cons, List.mem_cons, not_or] at h
    rw [List.foldl_cons, ih h.2, get?_offer_of_ne (Ne.symm h.1)]

/-- An interface offers at most one field of a name. -/
theorem Supplied.offerAll {offered : List SeenField} {own supplied : FieldSet} {name : String}
    (h : Supplied catalog offered (Table.get? supplied name)) (hlacked : name ∉ Table.keys own)
    {fields : FieldSet} (hn : (Table.keys fields).Nodup) :
    Supplied catalog (offered ++ (Table.get? fields name).toList)
      (Table.get? (fields.foldl
        (fun supplied entry => Requirement.offer catalog own supplied entry.1 entry.2) supplied)
        name) := by
  induction fields generalizing supplied with
  | nil => simpa using h
  | cons entry rest ih =>
    rw [Table.keys_cons, List.nodup_cons] at hn
    rw [List.foldl_cons, Table.get?_cons]
    split
    next he =>
      subst he
      rw [get?_foldl_offer_of_notMem hn.1]
      exact h.offer hlacked entry.2
    next hne => exact ih (by rwa [get?_offer_of_ne hne]) hn.2

theorem offers_concat (interfaces : List String) (interface name : String) :
    offers effective (interfaces ++ [interface]) name =
      offers effective interfaces name ++
        (Table.get? ((Table.get? effective interface).getD []) name).toList := by
  rw [offers, List.filterMap_append]
  cases hf : Table.get? effective interface with
  | none => simp [offers, hf]
  | some fields => cases hs : Table.get? fields name <;> simp [offers, hf, hs]

/-- What is to be reported on a required field of an object. -/
inductive Verdict (catalog : Catalog) (effective : Table FieldSet) (inherit : Bool)
    (object : String) (interfaces : List String) (own : FieldSet) :
    String × String × SeenField → List Problem → Prop
  | missing {interface name : String} {required : SeenField} (lacked : name ∉ Table.keys own)
      (forbidden : inherit = false) :
      Verdict catalog effective inherit object interfaces own (interface, name, required)
        [.missingInterfaceField interface object name]
  | diverging {interface name : String} {required candidate : SeenField}
      (stands : StandsFor catalog effective inherit interfaces own name candidate)
      (differs : signatureOf catalog candidate.declaration ≠
        signatureOf catalog required.declaration) :
      Verdict catalog effective inherit object interfaces own (interface, name, required)
        [.interfaceFieldMismatch interface object name (signatureOf catalog required.declaration)
          (signatureOf catalog candidate.declaration)]
  | agreeing {interface name : String} {required candidate : SeenField}
      {report : Table ArgumentMismatch}
      (stands : StandsFor catalog effective inherit interfaces own name candidate)
      (agrees : signatureOf catalog candidate.declaration =
        signatureOf catalog required.declaration)
      (told : ArgumentReport (argumentTypes catalog effective required.declaration)
        (argumentTypes catalog effective candidate.declaration) report) :
      Verdict catalog effective inherit object interfaces own (interface, name, required)
        (report.map fun entry =>
          .interfaceArgumentMismatch interface object name entry.1 entry.2)

def Verdicts (catalog : Catalog) (effective : Table FieldSet) (inherit : Bool) (object : String)
    (interfaces : List String) (own : FieldSet) (interface : String) (report : List Problem) :
    Prop :=
  ∃ fields verdicts, Table.get? effective interface = some fields ∧
    List.Forall₂ (fun field =>
      Verdict catalog effective inherit object interfaces own (interface, field)) fields verdicts ∧
    report = verdicts.flatten

/-- The account of an object: the verdicts on the fields of its interfaces. -/
def Account (catalog : Catalog) (effective : Table FieldSet) (inherit : Bool) (object : String)
    (problems : List Problem) : Prop :=
  ∃ interfaces own reports, catalog.interfacesOf object = .ok interfaces ∧
    Table.get? effective object = some own ∧
    List.Forall₂ (Verdicts catalog effective inherit object interfaces own) interfaces reports ∧
    problems = reports.flatten

section

variable {inherit : Bool}
  (hkeyed : ∀ name fields, Table.get? effective name = some fields → fields.WellKeyed)

include hkeyed

/-- What is supplied under a name that an object lacks leads the final run of what its interfaces
offer. -/
theorem supplied_suppliedFields (interfaces : List String) {own : FieldSet} {name : String}
    (hlacked : name ∉ Table.keys own) :
    Supplied catalog (offers effective interfaces name)
      (Table.get? (suppliedFields catalog effective interfaces own) name) := by
  induction interfaces using List.reverseRecOn with
  | nil => exact .none
  | append_singleton interfaces interface ih =>
    have hn : (Table.keys ((Table.get? effective interface).getD [])).Nodup := by
      cases hf : Table.get? effective interface with
      | none => exact List.nodup_nil
      | some fields => exact (hkeyed interface fields hf).nodup
    rw [offers_concat, suppliedFields_eq, requiredFields, List.flatMap_append, List.foldl_append,
      List.flatMap_singleton, List.foldl_map]
    exact ih.offerAll hlacked hn

theorem offers_ne_nil {interfaces : List String} {interface name : String} {required : SeenField}
    (h : (interface, name, required) ∈ requiredFields effective interfaces) :
    offers effective interfaces name ≠ [] := by
  obtain ⟨hinterface, fields, hfields, hm⟩ := mem_requiredFields.mp h
  apply List.ne_nil_of_mem (a := required)
  rw [offers, List.mem_filterMap]
  refine ⟨interface, hinterface, ?_⟩
  rw [hfields, Option.bind_some]
  exact Table.get?_of_mem (hkeyed interface fields hfields).nodup hm

/-- The candidate of the validator is the field that stands for the required one. -/
theorem candidate?_cases {interfaces : List String} {own : FieldSet} {interface name : String}
    {required : SeenField} (h : (interface, name, required) ∈ requiredFields effective interfaces) :
    (candidate? own (Fulfilment.suppliedTo catalog effective inherit interfaces own) name = none ∧
      name ∉ Table.keys own ∧ inherit = false) ∨
    ∃ candidate,
      candidate? own (Fulfilment.suppliedTo catalog effective inherit interfaces own) name =
        some candidate ∧
      StandsFor catalog effective inherit interfaces own name candidate := by
  rw [candidate?, Fulfilment.suppliedTo]
  cases howned : Table.get? own name with
  | some candidate => exact Or.inr ⟨candidate, rfl, .own howned⟩
  | none =>
    have hlacked := (Table.get?_eq_none_iff _ _).mp howned
    rw [Option.none_or]
    cases inherit with
    | false => exact Or.inl ⟨rfl, hlacked, rfl⟩
    | true =>
      have hsupplied : Supplied catalog _ _ := supplied_suppliedFields hkeyed interfaces hlacked
      rw [if_pos rfl]
      generalize hoffered : offers effective interfaces name = offered at hsupplied
      generalize Table.get? (suppliedFields catalog effective interfaces own) name = present
        at hsupplied ⊢
      cases hsupplied with
      | none => exact absurd hoffered (offers_ne_nil hkeyed h)
      | some hleads =>
        subst hoffered
        exact Or.inr ⟨_, rfl, .supplied hlacked rfl hleads hleads.signature_last⟩

theorem verdict_fieldViolations (object : String) {interfaces : List String} (own : FieldSet)
    {interface name : String} {required : SeenField}
    (h : (interface, name, required) ∈ requiredFields effective interfaces) :
    Verdict catalog effective inherit object interfaces own (interface, name, required)
      (fieldViolations catalog effective object interface name required
        (candidate? own (Fulfilment.suppliedTo catalog effective inherit interfaces own) name)) := by
  -- The field stands under its own name, which is the one that the problems tell.
  have hname : required.declaration.name = name := by
    obtain ⟨-, fields, hfields, hm⟩ := mem_requiredFields.mp h
    exact (hkeyed interface fields hfields).named _ hm
  rcases candidate?_cases hkeyed h with ⟨hnone, hlacked, hforbidden⟩ | ⟨candidate, hsome, hstands⟩
  · rw [hnone]
    exact .missing hlacked hforbidden
  · rw [hsome, fieldViolations]
    dsimp only
    split
    next hdiffers => exact .diverging hstands hdiffers
    next hagrees =>
      rw [hname]
      exact .agreeing hstands (Decidable.not_not.mp hagrees)
        (argumentReport (nodup_argumentTypes _) (nodup_argumentTypes _))

end

end Requirement

namespace Fulfilment

open Requirement

variable {catalog : Catalog} {effective : Table FieldSet} {inherit : Bool}

theorem violations_eq (object : String) (interfaces : List String) (own supplied : FieldSet) :
    violations catalog effective object interfaces own supplied =
      (interfaces.map fun interface => ((Table.get? effective interface).getD []).flatMap fun field =>
        fieldViolations catalog effective object interface field.1 field.2
          (candidate? own supplied field.1)).flatten := by
  rw [violations, requiredFields, List.flatMap_assoc, ← List.flatMap_def]
  simp only [List.flatMap_map]

theorem account_objectProblems
    (hkeyed : ∀ name fields, Table.get? effective name = some fields → fields.WellKeyed)
    {object : String} {interfaces : List String} {own : FieldSet}
    (hi : catalog.interfacesOf object = .ok interfaces)
    (hown : Table.get? effective object = some own)
    (hsets : ∀ interface ∈ interfaces, ∃ fields, Table.get? effective interface = some fields) :
    Account catalog effective inherit object
      (objectProblems catalog effective inherit object) := by
  rw [objectProblems, hi]
  dsimp only
  rw [hown]
  refine ⟨interfaces, own, _, hi, hown, ?_, violations_eq object interfaces own _⟩
  rw [List.forall₂_map_right_iff, List.forall₂_same]
  intro interface hinterface
  obtain ⟨fields, hfields⟩ := hsets interface hinterface
  rw [hfields, Option.getD_some]
  refine ⟨fields, _, hfields, ?_, List.flatMap_def⟩
  rw [List.forall₂_map_right_iff, List.forall₂_same]
  rintro ⟨name, required⟩ hrequired
  exact verdict_fieldViolations hkeyed object own
    (mem_requiredFields.mpr ⟨hinterface, fields, hfields, hrequired⟩)

/-- Where the interfaces of all objects are known, the problems of one object follow those of the
one before. -/
theorem objects_problems {start : Progress} {objects : List String} (h : Visits catalog objects)
    (hderived : ∀ object ∈ objects, ∃ interfaces own,
      catalog.interfacesOf object = .ok interfaces ∧
        Table.get? start.effective object = some own) :
    (objects.foldl (checkObject catalog inherit) start).problems =
      start.problems ++ (objects.map (objectProblems catalog start.effective inherit)).flatten := by
  refine objects_induction h (P := fun objects progress => progress.problems =
    start.problems ++ (objects.map (objectProblems catalog start.effective inherit)).flatten)
    (by simp) fun before object progress hpart ih hreads => ?_
  obtain ⟨interfaces, own, hi, hown⟩ :=
    hderived object (hpart.subset (List.mem_append_right _ List.mem_cons_self))
  rw [List.map_append, List.flatten_append, ← List.append_assoc, ← ih]
  rcases checkObject_cases hreads inherit with
    ⟨found, hfound, -⟩ | ⟨_, -, hnone, -⟩ | ⟨_, _, -, -, he⟩
  · rw [hi] at hfound
    cases hfound
  · rw [hown] at hnone
    cases hnone
  · rw [he, List.map_singleton, List.flatten_singleton]

theorem run_problems (hn : (Table.keys catalog.types).Nodup)
    (hlineages : ∀ name ∈ Table.keys catalog.types, ∃ chain, catalog.IsLineage name chain)
    (hderived : ∀ object ∈ Table.keys (catalog.typesOfKind .object), ∃ interfaces own,
      catalog.interfacesOf object = .ok interfaces ∧ Table.get? effective object = some own) :
    (run catalog effective inherit).problems =
      ((Table.keys (catalog.typesOfKind .object)).map
        (objectProblems catalog effective inherit)).flatten := by
  have hinterfaces : (Table.keys (catalog.typesOfKind .interface)).filterMap
      (fun name => problemOf (catalog.lineage name)) = [] := by
    rw [List.filterMap_eq_nil_iff]
    intro interface hinterface
    obtain ⟨chain, hchain⟩ := hlineages interface (Catalog.keys_typesOfKind_subset _ _ hinterface)
    exact problemOf_eq_none_iff.mpr ⟨chain, Catalog.lineage_eq_ok_iff.mpr hchain⟩
  rw [run_eq _ _ _ hn, objects_problems (visits_typesOfKind hn) hderived, hinterfaces,
    List.nil_append]

end Fulfilment

namespace Catalog

open Fulfilment Requirement

variable {catalog : Catalog}

/-- No clause of an object or of one of its ancestors can fail. -/
theorem ImplementsDeclared.exists_interfacesOf (h : catalog.ImplementsDeclared)
    (hn : (Table.keys catalog.types).Nodup)
    (hlineages : ∀ name ∈ Table.keys catalog.types, ∃ chain, IsLineage catalog name chain)
    {object : String} (hobject : object ∈ Table.keys (catalog.typesOfKind .object)) :
    ∃ interfaces, catalog.interfacesOf object = .ok interfaces := by
  obtain ⟨entry, hentry, hkind⟩ := (mem_keys_typesOfKind hn).mp hobject
  obtain ⟨chain, hchain⟩ := hlineages object (Table.mem_keys_of_get? hentry)
  refine ⟨_, interfacesOf_eq_ok_iff.mpr ⟨chain, hchain, ?_, rfl⟩⟩
  rintro ⟨type, interface⟩ hclause
  obtain ⟨htype, found, hfound, hlisted⟩ := mem_implementsClauses.mp hclause
  -- An ancestor of an object is an object.
  obtain ⟨other, hother, hsame⟩ := hchain.declared hentry type htype
  obtain rfl := Option.some.inj (hfound.symm.trans hother)
  have hmember : (type, found) ∈ catalog.typesOfKind .object :=
    List.mem_filter.mpr ⟨Table.mem_of_get? hfound, decide_eq_true (hsame.trans hkind)⟩
  obtain ⟨target, htarget, hinterface⟩ :=
    (mem_keys_typesOfKind hn).mp (h (type, found) hmember interface hlisted)
  obtain ⟨above, habove⟩ := hlineages interface (Table.mem_keys_of_get? htarget)
  exact ⟨above, implementedBy_eq_ok_iff.mpr ⟨⟨target, htarget, hinterface⟩, habove⟩⟩

/-- A validation reports the accounts of all objects in catalog order and nothing else. -/
theorem validate_reports (hn : (Table.keys catalog.types).Nodup) {flattened : Table FieldSet}
    (hflattened : catalog.allFields = .ok flattened) (hdeclared : catalog.ImplementsDeclared)
    (inherit : Bool) :
    ∃ accounts relation,
      List.Forall₂ (Account catalog flattened inherit)
        (Table.keys (catalog.typesOfKind .object)) accounts ∧
      (catalog.validate flattened inherit).1 = unlessProblems accounts.flatten relation := by
  obtain ⟨hlineages, rfl⟩ := (allFields_eq_ok_iff hn).mp hflattened
  have hset {name : String} {entry : TypeEntry} (hentry : catalog.get? name = some entry) :
      ∃ fields, Table.get? catalog.flattened name = some fields :=
    ⟨_, by rw [get?_flattened, hentry, Option.map_some]⟩
  have hderived : ∀ object ∈ Table.keys (catalog.typesOfKind .object), ∃ interfaces own,
      catalog.interfacesOf object = .ok interfaces ∧
        Table.get? catalog.flattened object = some own := by
    intro object hobject
    obtain ⟨interfaces, hi⟩ := hdeclared.exists_interfacesOf hn hlineages hobject
    obtain ⟨entry, hentry, -⟩ := (mem_keys_typesOfKind hn).mp hobject
    obtain ⟨own, hown⟩ := hset hentry
    exact ⟨interfaces, own, hi, hown⟩
  refine ⟨(Table.keys (catalog.typesOfKind .object)).map
    (objectProblems catalog catalog.flattened inherit),
    (run catalog catalog.flattened inherit).relation, ?_, ?_⟩
  · rw [List.forall₂_map_right_iff, List.forall₂_same]
    intro object hobject
    obtain ⟨interfaces, own, hi, hown⟩ := hderived object hobject
    refine account_objectProblems (fun _ _ => wellKeyed_of_flattened) hi hown
      fun interface hinterface => ?_
    obtain ⟨entry, hentry, -⟩ := interface_of_mem_interfacesOf hi hinterface
    exact hset hentry
  · rw [validate, ← run_problems hn hlineages hderived]

end Catalog

def Registry.library : Registry :=
  let text : TypeExpr := .named (.literal "String")
  let number : TypeExpr := .named (.literal "Int")
  { types :=
      [{ TypeDeclaration.new .interface "Titled" with
          fields := [.new "label" text,
            (FieldDeclaration.new "find" number).addSource (.single (.new "term" (.nonNull text)))] },
        { TypeDeclaration.new .interface "Shelved" with fields := [.new "label" number] },
        { TypeDeclaration.new .interface "Lent" with fields := [.new "label" number] },
        { TypeDeclaration.new .object "Book" with
          interfaces := [.literal "Titled", .literal "Shelved", .literal "Lent"]
          fields := [(FieldDeclaration.new "find" number).addSource
            (.single (.new "limit" (.nonNull number)))] }] }

theorem Catalog.validate_reports_library :
    ∃ catalog flattened, Catalog.ofRegistry Registry.library = .ok catalog ∧
      (Table.keys catalog.types).Nodup ∧ catalog.allFields = .ok flattened ∧
      catalog.ImplementsDeclared ∧
      (catalog.validate flattened true).1 = .error
        ⟨[.interfaceFieldMismatch "Titled" "Book" "label" (.named "String") (.named "Int"),
          .interfaceArgumentMismatch "Titled" "Book" "find" "term"
            (.missing (.nonNull (.named "String"))),
          .interfaceArgumentMismatch "Titled" "Book" "find" "limit"
            (.mustBeNullable (.nonNull (.named "Int")))]⟩ ∧
      ∃ accounts relation,
        List.Forall₂ (Requirement.Account catalog flattened true)
          (Table.keys (catalog.typesOfKind .object)) accounts ∧
        (catalog.validate flattened true).1 = unlessProblems accounts.flatten relation := by
  have hrun : (Catalog.ofRegistry Registry.library).toOption.any (fun catalog =>
      decide catalog.ImplementsDeclared && catalog.allFields.toOption.any fun flattened =>
        decide ((Fulfilment.run catalog flattened true).problems =
          [.interfaceFieldMismatch "Titled" "Book" "label" (.named "String") (.named "Int"),
            .interfaceArgumentMismatch "Titled" "Book" "find" "term"
              (.missing (.nonNull (.named "String"))),
            .interfaceArgumentMismatch "Titled" "Book" "find" "limit"
              (.mustBeNullable (.nonNull (.named "Int")))])) = true := by
    decide +kernel
  obtain ⟨catalog, hcatalog, hrun⟩ := exists_ok_of_any hrun
  rw [Bool.and_eq_true, decide_eq_true_eq] at hrun
  obtain ⟨flattened, hflattened, hproblems⟩ := exists_ok_of_any hrun.2
  have hn := (Catalog.ofRegistry_wellNamed hcatalog).types_nodup
  refine ⟨catalog, flattened, hcatalog, hn, hflattened, hrun.1, ?_,
    validate_reports hn hflattened hrun.1 true⟩
  rw [validate, of_decide_eq_true hproblems]
  rfl

end Schemata
