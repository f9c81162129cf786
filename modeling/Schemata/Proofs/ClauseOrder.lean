import Schemata.Proofs.Offers
import Schemata.Proofs.Relisting

namespace Schemata

open Requirement Fulfilment

def Catalog.firstOffered? (catalog : Catalog) (effective : Table FieldSet) (object name : String) :
    Option SeenField :=
  (catalog.interfacesOf object).toOption.bind fun interfaces =>
    (offers effective interfaces name).head?

/-- Whether a validation passes that may supply fields. -/
def Catalog.Accepts (catalog : Catalog) (effective : Table FieldSet) : Prop :=
  ∃ relation, (catalog.validate effective true).1 = .ok relation

/-- No object is offered fields that do not agree. -/
def Catalog.OffersAgree (catalog : Catalog) (effective : Table FieldSet) : Prop :=
  ∀ object ∈ Table.keys (catalog.typesOfKind .object),
    ∀ interfaces ∈ (catalog.interfacesOf object).toOption, ∀ own ∈ Table.get? effective object,
      Agreeing catalog effective interfaces own

instance (catalog : Catalog) (effective : Table FieldSet) :
    Decidable (catalog.OffersAgree effective) :=
  inferInstanceAs (Decidable (∀ object ∈ Table.keys (catalog.typesOfKind .object),
    ∀ interfaces ∈ (catalog.interfacesOf object).toOption, ∀ own ∈ Table.get? effective object,
      Agreeing catalog effective interfaces own))

/-- Whether the second catalog supplies only fields that fulfil what the first one supplies. -/
def Catalog.FirstsFulfilled (catalog other : Catalog) (effective : Table FieldSet) : Prop :=
  ∀ object ∈ Table.keys (catalog.typesOfKind .object), ∀ own,
    Table.get? effective object = some own → ∀ name ∉ Table.keys own,
      ∀ first ∈ catalog.firstOffered? effective object name,
        ∀ first' ∈ other.firstOffered? effective object name,
          Fulfils catalog effective first'.declaration first.declaration

/-- Outcomes of two validations that differ in the order of interfaces and fields, and where an
object has no field of its own in which of several interchangeable ones it gets. -/
structure Catalog.SameOutcome (catalog : Catalog) (effective : Table FieldSet)
    (relation relation' : InterfaceRelation) (sets sets' : Table FieldSet) : Prop where
  implementers : relation'.implementers = relation.implementers
  ancestors : relation'.ancestors = relation.ancestors
  interfaces : List.Forall₂ (fun listed listed' => listed'.1 = listed.1 ∧ listed'.2.Perm listed.2)
    relation.interfaces relation'.interfaces
  keys : Table.keys sets' = Table.keys sets
  others : ∀ name ∉ Table.keys (catalog.typesOfKind .object),
    Table.get? sets' name = Table.get? sets name
  objects : ∀ object ∈ Table.keys (catalog.typesOfKind .object), ∃ own fields fields',
    Table.get? effective object = some own ∧ Table.get? sets object = some fields ∧
    Table.get? sets' object = some fields' ∧ (Table.keys fields').Perm (Table.keys fields) ∧
    ∀ name field field', Table.get? fields name = some field →
      Table.get? fields' name = some field' → field' = field ∨ name ∉ Table.keys own ∧
        Interchangeable catalog effective field.declaration field'.declaration

theorem offers_perm (effective : Table FieldSet) {interfaces relisted : List String}
    (h : relisted.Perm interfaces) (name : String) :
    (offers effective relisted name).Perm (offers effective interfaces name) :=
  h.filterMap _

theorem firstOffered?_of_ok {catalog : Catalog} {effective : Table FieldSet} {object : String}
    {interfaces : List String} (hi : catalog.interfacesOf object = .ok interfaces) (name : String) :
    catalog.firstOffered? effective object name = (offers effective interfaces name).head? := by
  rw [Catalog.firstOffered?, hi]
  rfl

namespace Catalog.Relists

variable {catalog other : Catalog} (h : catalog.Relists other) {effective : Table FieldSet}
  (hkeyed : ∀ name fields, Table.get? effective name = some fields → fields.WellKeyed)

include h

theorem fieldViolations (object interface name : String) (required : SeenField)
    (candidate : Option SeenField) :
    Requirement.fieldViolations other effective object interface name required candidate =
      Requirement.fieldViolations catalog effective object interface name required candidate := by
  cases candidate with
  | none => rfl
  | some found => rw [Requirement.fieldViolations, Requirement.fieldViolations, h.signatureOf,
      h.argumentTypes]

include hkeyed

/-- Where an order is fine for an object, another one is if what it supplies fulfils what the one
supplies. -/
theorem objectProblems_iff {object : String}
    (hfine : objectProblems catalog effective true object = []) :
    objectProblems other effective true object = [] ↔
      ∀ own, Table.get? effective object = some own → ∀ name ∉ Table.keys own,
        ∀ first ∈ catalog.firstOffered? effective object name,
          ∀ first' ∈ other.firstOffered? effective object name,
            Fulfils catalog effective first'.declaration first.declaration := by
  obtain ⟨interfaces, hi, hviolations⟩ := objectProblems_eq_nil_iff.mp hfine
  obtain ⟨relisted, hrelisted, hperm⟩ := h.interfacesOf_ok hi
  simp only [objectProblems_eq_nil_iff, hrelisted, Except.ok.injEq, exists_eq_left']
  refine forall₂_congr fun own hown => ?_
  have hfulfilled := (violations_eq_nil_iff_first hkeyed).mp (hviolations own hown)
  rw [violations_eq_nil_iff_first hkeyed]
  simp only [h.fulfils_iff, firstOffered?_of_ok hi, firstOffered?_of_ok hrelisted]
  constructor
  · intro hother name hlacked first hfirst first' hfirst'
    have hoffered := (offers_perm effective hperm name).mem_iff.mpr (List.mem_of_head? hfirst)
    obtain ⟨answer, hanswer, hfulfils⟩ := hother name first hoffered
    rw [firstAnswer?, (Table.get?_eq_none_iff _ _).mpr hlacked, Option.none_or] at hanswer
    obtain rfl := Option.some.inj (hfirst'.symm.trans hanswer)
    exact hfulfils
  · intro hfirsts name required hrequired
    have hbefore := (offers_perm effective hperm name).mem_iff.mp hrequired
    obtain ⟨answer, hanswer, hfulfils⟩ := hfulfilled name required hbefore
    rw [firstAnswer?] at hanswer ⊢
    cases howned : Table.get? own name with
    | some field =>
      rw [howned, Option.some_or] at hanswer
      exact ⟨answer, hanswer, hfulfils⟩
    | none =>
      have hlacked := (Table.get?_eq_none_iff _ _).mp howned
      have hfirst' := List.head?_eq_some_head (List.ne_nil_of_mem hrequired)
      rw [howned, Option.none_or] at hanswer
      exact ⟨_, hfirst', (hfirsts name hlacked answer hanswer _ hfirst').trans hfulfils⟩

/-- Two orders that are both fine for an object leave it with the same fields, but for which of
several interchangeable ones it is supplied with. -/
theorem settledFields {object : String} {own : FieldSet}
    (hown : Table.get? effective object = some own)
    (hfine : objectProblems catalog effective true object = [])
    (hfine' : objectProblems other effective true object = []) :
    (Table.keys (Fulfilment.settledFields other effective true object own)).Perm
      (Table.keys (Fulfilment.settledFields catalog effective true object own)) ∧
    ∀ name field field',
      Table.get? (Fulfilment.settledFields catalog effective true object own) name = some field →
      Table.get? (Fulfilment.settledFields other effective true object own) name = some field' →
        field' = field ∨ name ∉ Table.keys own ∧
          Interchangeable catalog effective field.declaration field'.declaration := by
  obtain ⟨interfaces, hi, -⟩ := objectProblems_eq_nil_iff.mp hfine
  obtain ⟨relisted, hrelisted, hperm⟩ := h.interfacesOf_ok hi
  have hfirst := get?_settledFields_first hkeyed hi hown hfine
  have hfirst' := get?_settledFields_first hkeyed hrelisted hown hfine'
  constructor
  · have hnodup (which : Catalog) :
        (Table.keys (Fulfilment.settledFields which effective true object own)).Nodup :=
      (settledFields_wellKeyed hkeyed object (hkeyed object own hown)).nodup
    refine (List.perm_ext_iff_of_nodup (hnodup other) (hnodup catalog)).mpr fun name => ?_
    rw [← not_iff_not, ← Table.get?_eq_none_iff, ← Table.get?_eq_none_iff, hfirst, hfirst',
      firstAnswer?, firstAnswer?, Option.or_eq_none_iff, Option.or_eq_none_iff,
      List.head?_eq_none_iff, List.head?_eq_none_iff]
    have hoffers := offers_perm effective hperm name
    exact and_congr_right fun _ => ⟨fun he => (he ▸ hoffers).nil_eq.symm,
      fun he => (he ▸ hoffers).eq_nil⟩
  · intro name field field' hfield hfield'
    rw [hfirst, firstAnswer?] at hfield
    rw [hfirst', firstAnswer?] at hfield'
    cases howned : Table.get? own name with
    | some seen =>
      rw [howned, Option.some_or] at hfield hfield'
      exact Or.inl (Option.some.inj (hfield'.symm.trans hfield))
    | none =>
      rw [howned, Option.none_or] at hfield hfield'
      have hlacked := (Table.get?_eq_none_iff _ _).mp howned
      rw [← firstOffered?_of_ok hi] at hfield
      rw [← firstOffered?_of_ok hrelisted] at hfield'
      have hthere := (h.objectProblems_iff hkeyed hfine).mp hfine' own hown name hlacked
        field hfield field' hfield'
      have hback := (h.symm.objectProblems_iff hkeyed hfine').mp hfine own hown name hlacked
        field' hfield' field hfield
      exact Or.inr ⟨hlacked, (h.fulfils_iff.mp hback).interchangeable hthere⟩

omit hkeyed

section

variable (hlineages : ∀ name ∈ Table.keys catalog.types, ∃ chain, catalog.IsLineage name chain)

include hlineages

include hkeyed in
/-- Only what is wrong with fields that an object lacks depends on the order. -/
theorem mem_objectProblems {object : String} (hobject : object ∈ Table.keys catalog.types)
    {problem : Problem}
    (howned : ∀ type field, problem.requirement? = some (type, field) →
      ∃ own, Table.get? effective type = some own ∧ field ∈ Table.keys own)
    (hproblem : problem ∈ objectProblems catalog effective true object) :
    problem ∈ objectProblems other effective true object := by
  rw [objectProblems] at hproblem ⊢
  cases hi : catalog.interfacesOf object with
  | error found =>
    obtain ⟨relisted, hrelisted, hperm⟩ := h.interfacesOf_error hlineages hobject hi
    rw [hi] at hproblem
    rw [hrelisted]
    exact hperm.mem_iff.mpr hproblem
  | ok interfaces =>
    obtain ⟨relisted, hrelisted, hperm⟩ := h.interfacesOf_ok hi
    rw [hi] at hproblem
    rw [hrelisted]
    dsimp only at hproblem ⊢
    cases hown : Table.get? effective object with
    | none =>
      rw [hown] at hproblem
      cases hproblem
    | some own =>
      rw [hown] at hproblem
      dsimp only at hproblem ⊢
      obtain ⟨⟨interface, name, required⟩, hrequired, hfound⟩ := List.mem_flatMap.mp hproblem
      dsimp only at hfound
      obtain ⟨hinterface, set, hset, hmem⟩ := mem_requiredFields.mp hrequired
      have hnamed := (hkeyed interface set hset).named _ hmem
      have habout := requirement_of_fieldViolations hfound
      rw [hnamed, or_self] at habout
      obtain ⟨own', hown', hname⟩ := howned object name habout
      obtain rfl := Option.some.inj (hown.symm.trans hown')
      obtain ⟨field, hfield⟩ := Table.exists_get?_of_mem_keys hname
      refine List.mem_flatMap.mpr ⟨(interface, name, required),
        mem_requiredFields.mpr ⟨hperm.mem_iff.mpr hinterface, set, hset, hmem⟩, ?_⟩
      dsimp only
      rw [candidate?, hfield, Option.some_or] at hfound ⊢
      rwa [h.fieldViolations]

theorem recorded? (effective : Table FieldSet) {object : String}
    (hobject : object ∈ Table.keys catalog.types) :
    Option.Rel (fun listed relisted => relisted.Perm listed)
      (Fulfilment.recorded? catalog effective object)
      (Fulfilment.recorded? other effective object) := by
  rw [Fulfilment.recorded?, Fulfilment.recorded?]
  cases hi : catalog.interfacesOf object with
  | error found =>
    obtain ⟨relisted, hrelisted, -⟩ := h.interfacesOf_error hlineages hobject hi
    rw [hrelisted]
    exact .none
  | ok interfaces =>
    obtain ⟨relisted, hrelisted, hperm⟩ := h.interfacesOf_ok hi
    rw [hrelisted]
    cases Table.get? effective object with
    | none => exact .none
    | some own => exact .some hperm

variable (hn : (Table.keys catalog.types).Nodup)

include hn

theorem run_implementers :
    (run other effective true).relation.implementers =
      (run catalog effective true).relation.implementers := by
  rw [Fulfilment.run_implementers _ _ _ hn, Fulfilment.run_implementers _ _ _ (h.keys ▸ hn),
    h.keys_typesOfKind, h.keys_typesOfKind]
  refine List.map_congr_left fun name _ => Prod.ext rfl (List.filter_congr fun object hobject => ?_)
  have hrecorded := h.recorded? hlineages effective (keys_typesOfKind_subset _ _ hobject)
  generalize Fulfilment.recorded? catalog effective object = listed at hrecorded ⊢
  generalize Fulfilment.recorded? other effective object = relisted at hrecorded ⊢
  cases hrecorded with
  | none => rfl
  | some hperm => exact decide_eq_decide.mpr hperm.mem_iff

theorem run_ancestors :
    (run other effective true).relation.ancestors =
      (run catalog effective true).relation.ancestors := by
  rw [Fulfilment.run_ancestors _ _ _ hn, Fulfilment.run_ancestors _ _ _ (h.keys ▸ hn),
    h.keys_typesOfKind]
  refine List.filterMap_congr fun name hname => ?_
  rw [h.lineage hlineages (keys_typesOfKind_subset _ _ hname)]

theorem run_interfaces :
    List.Forall₂ (fun listed relisted => relisted.1 = listed.1 ∧ relisted.2.Perm listed.2)
      (run catalog effective true).relation.interfaces
      (run other effective true).relation.interfaces := by
  rw [Fulfilment.run_interfaces _ _ _ hn, Fulfilment.run_interfaces _ _ _ (h.keys ▸ hn),
    h.keys_typesOfKind]
  have hobjects : List.Forall₂ (fun object same => object = same ∧
      object ∈ Table.keys catalog.types) (Table.keys (catalog.typesOfKind .object))
      (Table.keys (catalog.typesOfKind .object)) :=
    List.forall₂_same.mpr fun object hobject => ⟨rfl, keys_typesOfKind_subset _ _ hobject⟩
  refine List.rel_filterMap ?_ hobjects
  rintro object same ⟨hsame, hobject⟩
  subst hsame
  dsimp only
  have hrecorded := h.recorded? hlineages effective hobject
  generalize Fulfilment.recorded? catalog effective object = listed at hrecorded ⊢
  generalize Fulfilment.recorded? other effective object = relisted at hrecorded ⊢
  cases hrecorded with
  | none => exact .none
  | some hperm => exact .some ⟨rfl, hperm⟩

include hkeyed in
theorem mem_run_problems {problem : Problem}
    (howned : ∀ type field, problem.requirement? = some (type, field) →
      ∃ own, Table.get? effective type = some own ∧ field ∈ Table.keys own)
    (hproblem : problem ∈ (run catalog effective true).problems) :
    problem ∈ (run other effective true).problems := by
  obtain ⟨object, hobject, hfound⟩ := (mem_run_problems_iff hn hlineages).mp hproblem
  rw [mem_run_problems_iff (h.keys ▸ hn) (h.lineages hlineages), h.keys_typesOfKind]
  exact ⟨object, hobject, h.mem_objectProblems hkeyed hlineages
    (keys_typesOfKind_subset _ _ hobject) howned hfound⟩

end

end Catalog.Relists

namespace Catalog

variable {catalog other : Catalog} {effective : Table FieldSet}

theorem accepts_iff (hn : (Table.keys catalog.types).Nodup)
    (hlineages : ∀ name ∈ Table.keys catalog.types, ∃ chain, catalog.IsLineage name chain) :
    catalog.Accepts effective ↔ ∀ object ∈ Table.keys (catalog.typesOfKind .object),
      objectProblems catalog effective true object = [] := by
  have hchains : ∀ interface ∈ Table.keys (catalog.typesOfKind .interface),
      ∃ chain, catalog.lineage interface = .ok chain := by
    intro interface hinterface
    obtain ⟨chain, hchain⟩ := hlineages interface (keys_typesOfKind_subset _ _ hinterface)
    exact ⟨chain, lineage_eq_ok_iff.mpr hchain⟩
  simp only [Accepts, validate, unlessProblems_eq_ok_iff, exists_and_left, exists_eq', and_true]
  rw [run_problems_eq_nil_iff _ _ _ hn, and_iff_right hchains]

theorem OffersAgree.relisted (hagree : catalog.OffersAgree effective) (h : catalog.Relists other) :
    other.OffersAgree effective := by
  intro object hobject interfaces hi own hown offered hoffered offered' hoffered' hname hlacked
    hfulfils
  rw [h.keys_typesOfKind] at hobject
  obtain ⟨before, hbefore, hperm⟩ := h.symm.interfacesOf_ok (mem_toOption.mp hi)
  have hrequired (entry : String × String × SeenField)
      (hentry : entry ∈ requiredFields effective interfaces) :
      entry ∈ requiredFields effective before := by
    obtain ⟨hinterface, hset⟩ := mem_requiredFields.mp hentry
    exact mem_requiredFields.mpr ⟨hperm.mem_iff.mpr hinterface, hset⟩
  have hagreeing : Agreeing catalog effective before own :=
    hagree object hobject before (mem_toOption.mpr hbefore) own hown
  exact h.fulfils_iff.mpr (hagreeing offered (hrequired offered hoffered) offered'
    (hrequired offered' hoffered') hname hlacked (h.fulfils_iff.mp hfulfils))

section

variable (hn : (Table.keys catalog.types).Nodup)
  (hlineages : ∀ name ∈ Table.keys catalog.types, ∃ chain, catalog.IsLineage name chain)
  (hkeyed : ∀ name fields, Table.get? effective name = some fields → fields.WellKeyed)
  (h : catalog.Relists other)

include hn hlineages hkeyed h

theorem Accepts.iff_firstsFulfilled (haccepts : catalog.Accepts effective) :
    other.Accepts effective ↔ catalog.FirstsFulfilled other effective := by
  rw [accepts_iff hn hlineages] at haccepts
  rw [accepts_iff (h.keys ▸ hn) (h.lineages hlineages), h.keys_typesOfKind]
  exact forall₂_congr fun object hobject => h.objectProblems_iff hkeyed (haccepts object hobject)

/-- Where offers agree, what one order supplies fulfils what any other one supplies. -/
theorem Accepts.relisted (haccepts : catalog.Accepts effective)
    (hagree : catalog.OffersAgree effective) : other.Accepts effective := by
  refine (haccepts.iff_firstsFulfilled hn hlineages hkeyed h).mpr ?_
  rw [accepts_iff hn hlineages] at haccepts
  intro object hobject own hown name hlacked first hfirst first' hfirst'
  obtain ⟨interfaces, hi, hviolations⟩ := objectProblems_eq_nil_iff.mp (haccepts object hobject)
  obtain ⟨relisted, hrelisted, hperm⟩ := h.interfacesOf_ok hi
  rw [firstOffered?_of_ok hi] at hfirst
  rw [firstOffered?_of_ok hrelisted] at hfirst'
  have hoffered := List.mem_of_head? hfirst
  have hoffered' := (offers_perm effective hperm name).mem_iff.mp (List.mem_of_head? hfirst')
  obtain ⟨answer, hanswer, hfulfils⟩ :=
    (violations_eq_nil_iff_first hkeyed).mp (hviolations own hown) name first' hoffered'
  rw [firstAnswer?, (Table.get?_eq_none_iff _ _).mpr hlacked, Option.none_or] at hanswer
  obtain rfl := Option.some.inj (hfirst.symm.trans hanswer)
  have hagreeing : Agreeing catalog effective interfaces own :=
    hagree object hobject interfaces (mem_toOption.mpr hi) own hown
  exact hagreeing.offers hkeyed hlacked hoffered hoffered' hfulfils

theorem sameOutcome_of_accepts
    (heffective : ∀ name ∈ Table.keys catalog.types, ∃ fields,
      Table.get? effective name = some fields)
    (haccepts : catalog.Accepts effective) (haccepts' : other.Accepts effective) :
    catalog.SameOutcome effective (run catalog effective true).relation
      (run other effective true).relation (run catalog effective true).effective
      (run other effective true).effective := by
  have hn' : (Table.keys other.types).Nodup := h.keys ▸ hn
  rw [accepts_iff hn hlineages] at haccepts
  rw [accepts_iff (h.keys ▸ hn) (h.lineages hlineages), h.keys_typesOfKind] at haccepts'
  refine
    { implementers := h.run_implementers hlineages hn
      ancestors := h.run_ancestors hlineages hn
      interfaces := h.run_interfaces hlineages hn
      keys := by rw [keys_run_effective _ _ _ hn, keys_run_effective _ _ _ hn']
      others := fun name hname => ?_
      objects := fun object hobject => ?_ }
  · rw [get?_run_effective _ _ _ hn, get?_run_effective _ _ _ hn', h.keys_typesOfKind]
    simp only [if_neg hname]
  · obtain ⟨own, hown⟩ := heffective object (keys_typesOfKind_subset _ _ hobject)
    refine ⟨own, settledFields catalog effective true object own,
      settledFields other effective true object own, hown, ?_, ?_,
      h.settledFields hkeyed hown (haccepts object hobject) (haccepts' object hobject)⟩
    · rw [get?_run_effective _ _ _ hn, hown, Option.map_some, if_pos hobject]
    · rw [get?_run_effective _ _ _ hn', hown, Option.map_some, h.keys_typesOfKind, if_pos hobject]

end

/-- The order in which objects list their interfaces decides which field an object is supplied with
where several interfaces offer one of its name. An order is accepted if that field fulfils the one of
an accepted order, which any does where the offers agree. Two accepted orders have the same outcome
but for the order of interfaces and fields and the choice between interchangeable fields. What is
reported is the same but for fields that an object lacks. -/
theorem validate_relisted (hn : (Table.keys catalog.types).Nodup) (h : catalog.Relists other)
    {flattened : Table FieldSet} (hflattened : catalog.allFields = .ok flattened) :
    other.allFields = .ok flattened ∧
    (catalog.OffersAgree flattened → (catalog.Accepts flattened ↔ other.Accepts flattened)) ∧
    (catalog.Accepts flattened →
      (other.Accepts flattened ↔ catalog.FirstsFulfilled other flattened)) ∧
    (∀ relation relation', (catalog.validate flattened true).1 = .ok relation →
      (other.validate flattened true).1 = .ok relation' →
        catalog.SameOutcome flattened relation relation' (catalog.validate flattened true).2
          (other.validate flattened true).2) ∧
    ∀ problem : Problem, (∀ object field, problem.requirement? = some (object, field) →
        ∃ own, Table.get? flattened object = some own ∧ field ∈ Table.keys own) →
      (problem ∈ reported (catalog.validate flattened true).1 ↔
        problem ∈ reported (other.validate flattened true).1) := by
  refine ⟨h.allFields hn hflattened, ?_⟩
  obtain ⟨hlineages, rfl⟩ := (allFields_eq_ok_iff hn).mp hflattened
  have hn' : (Table.keys other.types).Nodup := h.keys ▸ hn
  have hlineages' := h.lineages hlineages
  have hkeyed : ∀ name fields, Table.get? catalog.flattened name = some fields →
      fields.WellKeyed := fun _ _ => wellKeyed_of_flattened
  have heffective : ∀ name ∈ Table.keys catalog.types, ∃ fields,
      Table.get? catalog.flattened name = some fields := by
    intro name hname
    obtain ⟨entry, hentry⟩ := Table.exists_get?_of_mem_keys hname
    exact ⟨_, by rw [get?_flattened, get?, hentry, Option.map_some]⟩
  refine ⟨fun hagree => ⟨fun haccepts => ?_, fun haccepts => ?_⟩, fun haccepts => ?_, ?_,
    fun problem howned => ?_⟩
  · exact haccepts.relisted hn hlineages hkeyed h hagree
  · exact haccepts.relisted hn' hlineages' hkeyed h.symm (hagree.relisted h)
  · exact haccepts.iff_firstsFulfilled hn hlineages hkeyed h
  · intro relation relation' hrelation hrelation'
    obtain ⟨-, rfl⟩ := unlessProblems_eq_ok_iff.mp hrelation
    obtain ⟨-, rfl⟩ := unlessProblems_eq_ok_iff.mp hrelation'
    exact sameOutcome_of_accepts hn hlineages hkeyed h heffective ⟨_, hrelation⟩ ⟨_, hrelation'⟩
  · rw [validate, validate, reported_unlessProblems, reported_unlessProblems]
    exact ⟨h.mem_run_problems hkeyed hlineages hn howned,
      h.symm.mem_run_problems hkeyed hlineages' hn' howned⟩

end Catalog

def Registry.census : Registry :=
  let id : FieldDeclaration := .new "id" (.nonNull (.named (.literal "ID")))
  { types :=
      [{ TypeDeclaration.new .interface "Named" with
          fields := [id, .new "name" (.named (.literal "String"))] },
        { TypeDeclaration.new .interface "Aged" with
          fields := [id, .new "age" (.named (.literal "Int"))] },
        { TypeDeclaration.new .object "Person" with
          interfaces := [.literal "Named", .literal "Aged"]
          fields := [.new "email" (.named (.literal "String"))] }] }

theorem Catalog.validate_relisted_census :
    ∃ catalog flattened, Catalog.ofRegistry Registry.census = .ok catalog ∧
      (Table.keys catalog.types).Nodup ∧ catalog.Relists catalog.reverseClauses ∧
      catalog.allFields = .ok flattened ∧ catalog.OffersAgree flattened ∧
      catalog.Accepts flattened ∧ catalog.reverseClauses.Accepts flattened ∧
      (Table.get? (catalog.validate flattened true).2 "Person").map Table.keys =
        some ["id", "name", "age", "email"] ∧
      (Table.get? (catalog.reverseClauses.validate flattened true).2 "Person").map Table.keys =
        some ["id", "age", "name", "email"] := by
  have hrun : (Catalog.ofRegistry Registry.census).toOption.any (fun catalog =>
      catalog.allFields.toOption.any fun flattened =>
        (catalog.validate flattened true).1.toOption.any fun _ =>
          decide (catalog.OffersAgree flattened ∧
            (Table.get? (catalog.validate flattened true).2 "Person").map Table.keys =
              some ["id", "name", "age", "email"] ∧
            (Table.get? (catalog.reverseClauses.validate flattened true).2 "Person").map
              Table.keys = some ["id", "age", "name", "email"])) = true := by
    decide +kernel
  obtain ⟨catalog, hcatalog, hrun⟩ := exists_ok_of_any hrun
  obtain ⟨flattened, hflattened, hrun⟩ := exists_ok_of_any hrun
  obtain ⟨relation, hrelation, hrun⟩ := exists_ok_of_any hrun
  obtain ⟨hagree, hperson, hrelisted⟩ := of_decide_eq_true hrun
  have hn := (Catalog.ofRegistry_wellNamed hcatalog).types_nodup
  have hrelists := relists_reverseClauses catalog
  have haccepts : catalog.Accepts flattened := ⟨relation, hrelation⟩
  have haccepts' : catalog.reverseClauses.Accepts flattened :=
    ((validate_relisted hn hrelists hflattened).2.1 hagree).mp haccepts
  exact ⟨catalog, flattened, hcatalog, hn, hrelists, hflattened, hagree, haccepts, haccepts',
    hperson, hrelisted⟩

/-- A shop lacks a field that one interface offers with a further argument. -/
def Registry.shop : Registry :=
  let items : FieldDeclaration := .new "items" (.named (.literal "String"))
  { types :=
      [{ TypeDeclaration.new .interface "Plain" with fields := [items] },
        { TypeDeclaration.new .interface "Paged" with
          fields := [items.addSource (.single (.new "page" (.named (.literal "Int"))))] },
        { TypeDeclaration.new .object "Shop" with
          interfaces := [.literal "Plain", .literal "Paged"] }] }

/-- The shop passes if the interface with the further argument comes first. What is reported on the
library names other interfaces if they come in another order. -/
theorem Catalog.relisted_diverges :
    (∃ catalog flattened, Catalog.ofRegistry Registry.shop = .ok catalog ∧
      catalog.Relists catalog.reverseClauses ∧ catalog.allFields = .ok flattened ∧
      catalog.reverseClauses.allFields = .ok flattened ∧
      ¬ catalog.Accepts flattened ∧ catalog.reverseClauses.Accepts flattened) ∧
    ∃ catalog flattened, Catalog.ofRegistry Registry.library = .ok catalog ∧
      catalog.Relists catalog.reverseClauses ∧ catalog.allFields = .ok flattened ∧
      catalog.reverseClauses.allFields = .ok flattened ∧
      Problem.interfaceFieldMismatch "Titled" "Book" "label" (.named "String") (.named "Int") ∈
        reported (catalog.validate flattened true).1 ∧
      Problem.interfaceFieldMismatch "Titled" "Book" "label" (.named "String") (.named "Int") ∉
        reported (catalog.reverseClauses.validate flattened true).1 := by
  constructor
  · have hrun : (Catalog.ofRegistry Registry.shop).toOption.any (fun catalog =>
        catalog.allFields.toOption.any fun flattened =>
          (catalog.reverseClauses.validate flattened true).1.toOption.any fun _ =>
            decide (reported (catalog.validate flattened true).1 ≠ [])) = true := by
      decide +kernel
    obtain ⟨catalog, hcatalog, hrun⟩ := exists_ok_of_any hrun
    obtain ⟨flattened, hflattened, hrun⟩ := exists_ok_of_any hrun
    obtain ⟨relation, hrelation, hrun⟩ := exists_ok_of_any hrun
    have hn := (Catalog.ofRegistry_wellNamed hcatalog).types_nodup
    have hrelists := relists_reverseClauses catalog
    refine ⟨catalog, flattened, hcatalog, hrelists, hflattened, hrelists.allFields hn hflattened,
      ?_, ⟨relation, hrelation⟩⟩
    rintro ⟨passed, hpassed⟩
    rw [hpassed] at hrun
    exact of_decide_eq_true hrun rfl
  · have hrun : (Catalog.ofRegistry Registry.library).toOption.any (fun catalog =>
        catalog.allFields.toOption.any fun flattened =>
          decide (Problem.interfaceFieldMismatch "Titled" "Book" "label" (.named "String")
              (.named "Int") ∈ reported (catalog.validate flattened true).1 ∧
            Problem.interfaceFieldMismatch "Titled" "Book" "label" (.named "String")
              (.named "Int") ∉ reported (catalog.reverseClauses.validate flattened true).1)) =
          true := by
      decide +kernel
    obtain ⟨catalog, hcatalog, hrun⟩ := exists_ok_of_any hrun
    obtain ⟨flattened, hflattened, hrun⟩ := exists_ok_of_any hrun
    have hn := (Catalog.ofRegistry_wellNamed hcatalog).types_nodup
    have hrelists := relists_reverseClauses catalog
    exact ⟨catalog, flattened, hcatalog, hrelists, hflattened, hrelists.allFields hn hflattened,
      of_decide_eq_true hrun⟩

end Schemata
