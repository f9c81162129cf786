import Schemata.Proofs.Violations

namespace Schemata.Requirement

variable {catalog : Catalog} {effective : Table FieldSet}

/-- Fields that stand for each other: of one type and with the same arguments. -/
structure Interchangeable (catalog : Catalog) (effective : Table FieldSet)
    (field other : FieldDeclaration) : Prop where
  type : signatureOf catalog other = signatureOf catalog field
  arguments : Table.get? (argumentTypes catalog effective other) =
    Table.get? (argumentTypes catalog effective field)

/-- The arguments that are asked for are taken with their types, and any further one may be left
out. -/
theorem fulfils_iff {candidate required : FieldDeclaration} :
    Fulfils catalog effective candidate required ↔
      signatureOf catalog candidate = signatureOf catalog required ∧
      (∀ argument type, Table.get? (argumentTypes catalog effective required) argument = some type →
        Table.get? (argumentTypes catalog effective candidate) argument = some type) ∧
      ∀ argument type, Table.get? (argumentTypes catalog effective candidate) argument = some type →
        Table.get? (argumentTypes catalog effective required) argument = none →
        type.isNonNull = false := by
  have hasked : (Table.keys (argumentTypes catalog effective required)).Nodup :=
    nodup_argumentTypes required
  have htaken : (Table.keys (argumentTypes catalog effective candidate)).Nodup :=
    nodup_argumentTypes candidate
  simp only [Table.get?_eq_some_iff hasked, Table.get?_eq_some_iff htaken, Table.get?_eq_none_iff]
  constructor
  · rintro ⟨htype, harguments⟩
    obtain ⟨hpresent, hfurther⟩ := argumentMismatches_eq_nil_iff.mp harguments
    exact ⟨htype, fun argument type h => Table.mem_of_get? (hpresent argument type h), hfurther⟩
  · rintro ⟨htype, hpresent, hfurther⟩
    exact ⟨htype, argumentMismatches_eq_nil_iff.mpr
      ⟨fun argument type h => Table.get?_of_mem htaken (hpresent argument type h), hfurther⟩⟩

namespace Fulfils

theorem trans {first second third : FieldDeclaration} (h : Fulfils catalog effective first second)
    (h' : Fulfils catalog effective second third) : Fulfils catalog effective first third := by
  obtain ⟨htype, hpresent, hfurther⟩ := fulfils_iff.mp h
  obtain ⟨htype', hpresent', hfurther'⟩ := fulfils_iff.mp h'
  refine fulfils_iff.mpr ⟨htype.trans htype', fun argument type hasked =>
    hpresent argument type (hpresent' argument type hasked), fun argument type htaken hlacked => ?_⟩
  cases hbetween : Table.get? (argumentTypes catalog effective second) argument with
  | none => exact hfurther argument type htaken hbetween
  | some other =>
    have hsame := hpresent argument other hbetween
    obtain rfl := Option.some.inj (htaken.symm.trans hsame)
    exact hfurther' argument type hbetween hlacked

theorem interchangeable {field other : FieldDeclaration} (h : Fulfils catalog effective field other)
    (h' : Fulfils catalog effective other field) :
    Interchangeable catalog effective field other := by
  refine ⟨h.type.symm, funext fun argument => Option.ext fun type => ?_⟩
  exact ⟨(fulfils_iff.mp h).2.1 argument type, (fulfils_iff.mp h').2.1 argument type⟩

end Fulfils

/-- Fields of one type form one run. -/
theorem LeadsFinalRun.head?_eq {offered : List SeenField} {leader : SeenField}
    (h : LeadsFinalRun catalog offered leader)
    (halike : ∀ field ∈ offered, ∀ other ∈ offered,
      signatureOf catalog field.declaration = signatureOf catalog other.declaration) :
    offered.head? = some leader := by
  obtain ⟨before, rest, rfl, -, hbefore⟩ := h
  cases hlast : before.getLast? with
  | none =>
    rw [List.getLast?_eq_none_iff.mp hlast]
    rfl
  | some last =>
    have hmem := List.mem_of_getLast? hlast
    exact absurd (halike last (List.mem_append_left _ hmem) leader
      (List.mem_append_right _ List.mem_cons_self)) (hbefore last hlast)

/-- All fields that one field fulfils have its type. -/
theorem alike_of_fulfilled {offered : List SeenField} {answer : Option SeenField}
    (h : ∀ required ∈ offered, ∃ found, answer = some found ∧
      Fulfils catalog effective found.declaration required.declaration) :
    ∀ field ∈ offered, ∀ other ∈ offered,
      signatureOf catalog field.declaration = signatureOf catalog other.declaration := by
  intro field hfield other hother
  obtain ⟨found, hfound, hfulfils⟩ := h field hfield
  obtain ⟨again, hagain, hfulfils'⟩ := h other hother
  obtain rfl := Option.some.inj (hfound.symm.trans hagain)
  exact hfulfils.type.symm.trans hfulfils'.type

/-- What an object has under a name once it is supplied with the first field offered. -/
def firstAnswer? (effective : Table FieldSet) (interfaces : List String) (own : FieldSet)
    (name : String) : Option SeenField :=
  (Table.get? own name).or (offers effective interfaces name).head?

/-- Of two fields that interfaces offer under a name that an object lacks, none fulfils the other
without being fulfilled by it. -/
def Agreeing (catalog : Catalog) (effective : Table FieldSet) (interfaces : List String)
    (own : FieldSet) : Prop :=
  ∀ offered ∈ requiredFields effective interfaces, ∀ offered' ∈ requiredFields effective interfaces,
    offered'.2.1 = offered.2.1 → offered.2.1 ∉ Table.keys own →
    Fulfils catalog effective offered.2.2.declaration offered'.2.2.declaration →
      Fulfils catalog effective offered'.2.2.declaration offered.2.2.declaration

instance (catalog : Catalog) (effective : Table FieldSet) (interfaces : List String)
    (own : FieldSet) : Decidable (Agreeing catalog effective interfaces own) :=
  inferInstanceAs (Decidable (∀ offered ∈ requiredFields effective interfaces,
    ∀ offered' ∈ requiredFields effective interfaces,
      offered'.2.1 = offered.2.1 → offered.2.1 ∉ Table.keys own →
      Fulfils catalog effective offered.2.2.declaration offered'.2.2.declaration →
        Fulfils catalog effective offered'.2.2.declaration offered.2.2.declaration))

section

variable (hkeyed : ∀ name fields, Table.get? effective name = some fields → fields.WellKeyed)

include hkeyed

theorem mem_offers {interfaces : List String} {name : String} {required : SeenField} :
    required ∈ offers effective interfaces name ↔
      ∃ interface, (interface, name, required) ∈ requiredFields effective interfaces := by
  simp only [offers, List.mem_filterMap, Option.bind_eq_some_iff, mem_requiredFields]
  refine exists_congr fun interface => and_congr_right fun _ => exists_congr fun fields =>
    and_congr_right fun hfields => ?_
  exact Table.get?_eq_some_iff (hkeyed interface fields hfields).nodup

theorem Agreeing.offers {interfaces : List String} {own : FieldSet}
    (h : Agreeing catalog effective interfaces own) {name : String}
    (hlacked : name ∉ Table.keys own) {field other : SeenField}
    (hfield : field ∈ offers effective interfaces name)
    (hother : other ∈ offers effective interfaces name)
    (hfulfils : Fulfils catalog effective field.declaration other.declaration) :
    Fulfils catalog effective other.declaration field.declaration := by
  obtain ⟨interface, hrequired⟩ := (mem_offers hkeyed).mp hfield
  obtain ⟨interface', hrequired'⟩ := (mem_offers hkeyed).mp hother
  exact h _ hrequired _ hrequired' rfl hlacked hfulfils

/-- Where all that is offered under a name is of one type, the first field is supplied. -/
theorem candidate?_eq_first {interfaces : List String} {own : FieldSet} {name : String}
    (halike : name ∉ Table.keys own → ∀ field ∈ offers effective interfaces name,
      ∀ other ∈ offers effective interfaces name,
        signatureOf catalog field.declaration = signatureOf catalog other.declaration) :
    candidate? own (Fulfilment.suppliedTo catalog effective true interfaces own) name =
      firstAnswer? effective interfaces own name := by
  rw [candidate?, firstAnswer?, Fulfilment.suppliedTo, if_pos rfl]
  cases howned : Table.get? own name with
  | some field => rw [Option.some_or, Option.some_or]
  | none =>
    have hlacked := (Table.get?_eq_none_iff _ _).mp howned
    have hsupplied : Supplied catalog (offers effective interfaces name)
        (Table.get? (suppliedFields catalog effective interfaces own) name) :=
      supplied_suppliedFields hkeyed interfaces hlacked
    rw [Option.none_or, Option.none_or]
    generalize hfound : Table.get? (suppliedFields catalog effective interfaces own) name = found
      at hsupplied ⊢
    generalize offers effective interfaces name = offered at hsupplied halike ⊢
    cases hsupplied with
    | none => rfl
    | some leads => exact (leads.head?_eq (halike hlacked)).symm

variable {object : String} {interfaces : List String} {own : FieldSet}

theorem violations_eq_nil_iff_first :
    violations catalog effective object interfaces own
        (Fulfilment.suppliedTo catalog effective true interfaces own) = [] ↔
      ∀ name, ∀ required ∈ offers effective interfaces name, ∃ answer,
        firstAnswer? effective interfaces own name = some answer ∧
          Fulfils catalog effective answer.declaration required.declaration := by
  have hviolations : violations catalog effective object interfaces own
        (Fulfilment.suppliedTo catalog effective true interfaces own) = [] ↔
      ∀ name, ∀ required ∈ offers effective interfaces name, ∃ found,
        candidate? own (Fulfilment.suppliedTo catalog effective true interfaces own) name =
          some found ∧ Fulfils catalog effective found.declaration required.declaration := by
    simp only [violations, List.flatMap_eq_nil_iff, Prod.forall, fieldViolations_eq_nil_iff,
      mem_offers hkeyed]
    constructor
    · rintro h name required ⟨interface, hm⟩
      exact h interface name required hm
    · intro h interface name required hm
      exact h name required ⟨interface, hm⟩
  rw [hviolations]
  refine forall_congr' fun name => ⟨fun h => ?_, fun h => ?_⟩
  · rwa [candidate?_eq_first hkeyed fun _ => alike_of_fulfilled h] at h
  · rwa [candidate?_eq_first hkeyed fun _ => alike_of_fulfilled h]

/-- An object without a problem is left with its own fields and the first ones offered. -/
theorem get?_settledFields_first (hi : catalog.interfacesOf object = .ok interfaces)
    (hown : Table.get? effective object = some own)
    (hfine : Fulfilment.objectProblems catalog effective true object = []) (name : String) :
    Table.get? (Fulfilment.settledFields catalog effective true object own) name =
      firstAnswer? effective interfaces own name := by
  obtain ⟨derived, hderived, hviolations⟩ := Fulfilment.objectProblems_eq_nil_iff.mp hfine
  obtain rfl := Except.ok.inj (hi.symm.trans hderived)
  have hfulfilled := (violations_eq_nil_iff_first hkeyed).mp (hviolations own hown) name
  rw [Fulfilment.settledFields_of_fine hfine hi, get?_completed (hkeyed object own hown),
    candidate?_eq_first hkeyed fun _ => alike_of_fulfilled hfulfilled]

end

end Schemata.Requirement
