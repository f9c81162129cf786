import Schemata.Interface.Requirement
import Schemata.Proofs.Flattening
import Schemata.Proofs.Naming
import Schemata.Proofs.Relation

namespace Schemata

/-- Each argument set has the same fields in both maps. -/
def Catalog.AgreeOnSets (catalog : Catalog) (effective other : Table FieldSet) : Prop :=
  ∀ name, catalog.kindOf name = some (.declared .argumentSet) →
    Table.get? effective name = Table.get? other name

/-- Each type that is no object has the same fields in both maps. -/
def Catalog.AgreeOnOthers (catalog : Catalog) (effective other : Table FieldSet) : Prop :=
  ∀ name entry, catalog.get? name = some entry → entry.kind ≠ .object →
    Table.get? effective name = Table.get? other name

theorem Catalog.AgreeOnSets.of_others {catalog : Catalog} {effective other : Table FieldSet}
    (h : catalog.AgreeOnOthers effective other) : catalog.AgreeOnSets effective other := by
  intro name hset
  obtain ⟨entry, hentry, hkind⟩ := kindOf_eq_declared hset
  exact h name entry hentry (hkind ▸ TypeKind.noConfusion)

namespace Requirement

variable {catalog : Catalog} {effective : Table FieldSet}

/-- Only the field sets of argument sets matter. -/
theorem argumentTypes_congr {other : Table FieldSet} (h : catalog.AgreeOnSets effective other)
    (field : FieldDeclaration) :
    argumentTypes catalog effective field = argumentTypes catalog other field := by
  have hsource : sourceTypes catalog effective = sourceTypes catalog other := by
    funext source
    cases source with
    | single argument => rfl
    | set reference =>
      simp only [sourceTypes]
      split
      next hset => rw [h _ hset]
      next => rfl
  rw [argumentTypes, argumentTypes, hsource]

theorem requiredFields_congr {other : Table FieldSet} {interfaces : List String}
    (h : ∀ interface ∈ interfaces, Table.get? effective interface = Table.get? other interface) :
    requiredFields effective interfaces = requiredFields other interfaces := by
  rw [requiredFields, requiredFields]
  refine List.flatMap_congr fun interface hinterface => ?_
  rw [h interface hinterface]

section Others

variable {other : Table FieldSet} (h : catalog.AgreeOnOthers effective other)

include h

theorem argumentTypes_of_others (field : FieldDeclaration) :
    argumentTypes catalog effective field = argumentTypes catalog other field :=
  argumentTypes_congr (.of_others h) field

theorem fieldViolations_of_others (object interface name : String) (required : SeenField)
    (candidate : Option SeenField) :
    fieldViolations catalog effective object interface name required candidate =
      fieldViolations catalog other object interface name required candidate := by
  cases candidate with
  | none => rfl
  | some found =>
    simp only [fieldViolations, argumentTypes_of_others h]

variable {object : String} {interfaces : List String}
  (hi : catalog.interfacesOf object = .ok interfaces)

include hi

theorem requiredFields_of_others :
    requiredFields effective interfaces = requiredFields other interfaces := by
  refine requiredFields_congr fun interface hinterface => ?_
  obtain ⟨entry, hentry, hkind⟩ := Catalog.interface_of_mem_interfacesOf hi hinterface
  exact h interface entry hentry (hkind ▸ TypeKind.noConfusion)

theorem suppliedFields_of_others (own : FieldSet) :
    suppliedFields catalog effective interfaces own =
      suppliedFields catalog other interfaces own := by
  rw [suppliedFields, suppliedFields, requiredFields_of_others h hi]

theorem violations_of_others (own supplied : FieldSet) :
    violations catalog effective object interfaces own supplied =
      violations catalog other object interfaces own supplied := by
  rw [violations, violations, requiredFields_of_others h hi]
  refine List.flatMap_congr fun entry _ => ?_
  exact fieldViolations_of_others h object entry.1 entry.2.1 entry.2.2 _

end Others

theorem argumentMismatches_eq_nil_iff {expected found : Table Signature} :
    argumentMismatches expected found = [] ↔
      (∀ argument type, (argument, type) ∈ expected → Table.get? found argument = some type) ∧
        ∀ argument type, (argument, type) ∈ found → argument ∉ Table.keys expected →
          type.isNonNull = false := by
  rw [argumentMismatches, List.append_eq_nil_iff, List.filterMap_eq_nil_iff,
    List.filterMap_eq_nil_iff, Prod.forall, Prod.forall]
  apply and_congr
  · apply forall₂_congr
    intro argument type
    apply imp_congr_right
    intro _
    dsimp only
    cases Table.get? found argument <;> simp
  · apply forall₂_congr
    intro argument type
    apply imp_congr_right
    intro _
    dsimp only
    rw [← Table.contains_eq_false_iff]
    cases Table.contains expected argument <;> simp

structure Fulfils (catalog : Catalog) (effective : Table FieldSet)
    (candidate required : FieldDeclaration) : Prop where
  type : signatureOf catalog candidate = signatureOf catalog required
  arguments : argumentMismatches (argumentTypes catalog effective required)
    (argumentTypes catalog effective candidate) = []

instance (candidate required : FieldDeclaration) :
    Decidable (Fulfils catalog effective candidate required) :=
  decidable_of_iff (signatureOf catalog candidate = signatureOf catalog required ∧
      argumentMismatches (argumentTypes catalog effective required)
        (argumentTypes catalog effective candidate) = [])
    ⟨fun h => ⟨h.1, h.2⟩, fun h => ⟨h.type, h.arguments⟩⟩

theorem fieldViolations_eq_nil_iff {object interface name : String} {required : SeenField}
    {candidate : Option SeenField} :
    fieldViolations catalog effective object interface name required candidate = [] ↔
      ∃ found, candidate = some found ∧
        Fulfils catalog effective found.declaration required.declaration := by
  cases candidate with
  | none => simp [fieldViolations]
  | some found =>
    simp only [fieldViolations, Option.some.injEq, exists_eq_left']
    split
    next hne => exact ⟨fun h => by simp at h, fun h => absurd h.type hne⟩
    next he =>
      rw [List.map_eq_nil_iff]
      exact ⟨fun h => ⟨Decidable.not_not.mp he, h⟩, Fulfils.arguments⟩

/-- What is wrong with a required field is about that field, by its key or by its own name. -/
theorem requirement_of_fieldViolations {object interface name : String} {required : SeenField}
    {candidate : Option SeenField} {problem : Problem}
    (h : problem ∈ fieldViolations catalog effective object interface name required candidate) :
    problem.requirement? = some (object, name) ∨
      problem.requirement? = some (object, required.declaration.name) := by
  cases candidate with
  | none =>
    rw [fieldViolations] at h
    rw [List.mem_singleton.mp h]
    exact Or.inl rfl
  | some found =>
    rw [fieldViolations] at h
    dsimp only at h
    split at h
    next =>
      rw [List.mem_singleton.mp h]
      exact Or.inl rfl
    next =>
      obtain ⟨mismatch, -, rfl⟩ := List.mem_map.mp h
      exact Or.inr rfl

theorem mem_requiredFields {interfaces : List String} {interface name : String}
    {required : SeenField} :
    (interface, name, required) ∈ requiredFields effective interfaces ↔
      interface ∈ interfaces ∧ ∃ fields, Table.get? effective interface = some fields ∧
        (name, required) ∈ fields := by
  rw [requiredFields, List.mem_flatMap]
  constructor
  · rintro ⟨other, hother, hm⟩
    simp only [List.mem_map, Prod.mk.injEq, Prod.exists] at hm
    obtain ⟨key, seen, hseen, rfl, rfl, rfl⟩ := hm
    cases hf : Table.get? effective other with
    | none => simp [hf] at hseen
    | some fields => exact ⟨hother, fields, rfl, by simpa [hf] using hseen⟩
  · rintro ⟨hi, fields, hf, hm⟩
    refine ⟨interface, hi, List.mem_map.mpr ⟨(name, required), ?_, rfl⟩⟩
    simpa [hf] using hm

theorem violations_eq_nil_iff {object : String} {interfaces : List String}
    {own supplied : FieldSet} :
    violations catalog effective object interfaces own supplied = [] ↔
      ∀ interface ∈ interfaces, ∀ fields, Table.get? effective interface = some fields →
        ∀ name required, (name, required) ∈ fields →
          ∃ found, candidate? own supplied name = some found ∧
            Fulfils catalog effective found.declaration required.declaration := by
  simp only [violations, List.flatMap_eq_nil_iff, Prod.forall, fieldViolations_eq_nil_iff,
    mem_requiredFields]
  constructor
  · intro h interface hi fields hf name required hm
    exact h interface name required ⟨hi, fields, hf, hm⟩
  · rintro h interface name required ⟨hi, fields, hf, hm⟩
    exact h interface hi fields hf name required hm

/-- The candidates are the fields of the completed set. -/
theorem get?_completed {own : FieldSet} (hown : own.WellKeyed) (supplied : FieldSet) (name : String) :
    Table.get? (completed own supplied) name = candidate? own supplied name := by
  rw [completed, candidate?]
  split
  next he =>
    rw [List.isEmpty_iff] at he
    rw [he, Table.get?_nil, Option.or_none]
  next => rw [Table.get?_insertAll hown.nodup]

theorem get?_completed_of_own {own : FieldSet} (hown : own.WellKeyed) (supplied : FieldSet)
    {name : String} {seen : SeenField} (h : Table.get? own name = some seen) :
    Table.get? (completed own supplied) name = some seen := by
  rw [get?_completed hown, candidate?, h, Option.some_or]

/-- All that an offer can do: nothing, where there is a field of that name, or supply the field. -/
theorem offer_cases (catalog : Catalog) (own supplied : FieldSet) (name : String)
    (required : SeenField) :
    (offer catalog own supplied name required = supplied ∧
      (name ∈ Table.keys own ∨ name ∈ Table.keys supplied)) ∨
    (name ∉ Table.keys own ∧
      offer catalog own supplied name required = Table.insert supplied name required) := by
  rw [offer]
  split
  next howned => exact Or.inl ⟨rfl, Or.inl (Table.contains_iff.mp howned)⟩
  next hlacked =>
    rw [Table.contains_iff] at hlacked
    split
    next present hpresent =>
      split
      next => exact Or.inl ⟨rfl, Or.inr (Table.mem_keys_of_get? hpresent)⟩
      next => exact Or.inr ⟨hlacked, rfl⟩
    next => exact Or.inr ⟨hlacked, rfl⟩

theorem offer_wellKeyed {own supplied : FieldSet} (h : supplied.WellKeyed) {name : String}
    {required : SeenField} (hname : required.declaration.name = name) :
    (offer catalog own supplied name required).WellKeyed := by
  rcases offer_cases catalog own supplied name required with ⟨he, -⟩ | ⟨-, he⟩
  · rwa [he]
  · rw [he]
    exact h.insert hname

theorem suppliedFields_eq (interfaces : List String) (own : FieldSet) :
    suppliedFields catalog effective interfaces own =
      (requiredFields effective interfaces).foldl
        (fun supplied entry => offer catalog own supplied entry.2.1 entry.2.2) [] := rfl

theorem suppliedFields_wellKeyed {interfaces : List String}
    (h : ∀ interface ∈ interfaces, ∀ fields, Table.get? effective interface = some fields →
      fields.WellKeyed) (own : FieldSet) :
    (suppliedFields catalog effective interfaces own).WellKeyed := by
  have hnamed : ∀ entry ∈ requiredFields effective interfaces,
      entry.2.2.declaration.name = entry.2.1 := by
    rintro ⟨interface, name, required⟩ hm
    obtain ⟨hi, fields, hf, hm⟩ := mem_requiredFields.mp hm
    exact (h interface hi fields hf).named _ hm
  rw [suppliedFields_eq]
  -- From here on only the names of the required fields matter.
  generalize requiredFields effective interfaces = required at hnamed
  induction required using List.reverseRecOn with
  | nil => exact .nil
  | append_singleton required last ih =>
    rw [List.foldl_concat]
    rw [List.forall_mem_append, List.forall_mem_singleton] at hnamed
    exact offer_wellKeyed (ih hnamed.1) hnamed.2

theorem completed_wellKeyed {own supplied : FieldSet} (hown : own.WellKeyed)
    (hsupplied : supplied.WellKeyed) : (completed own supplied).WellKeyed := by
  rw [completed]
  split
  next => exact hown
  next => exact hsupplied.insertAll hown

end Requirement

end Schemata
