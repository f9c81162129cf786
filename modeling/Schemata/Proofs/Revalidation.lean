import Schemata.Proofs.InterfaceRelation
import Schemata.Proofs.Supply

namespace Schemata

def Problem.blamed? : Problem → Option String
  | .missingInterfaceField _ object _ => some object
  | .interfaceFieldMismatch _ object _ _ _ => some object
  | .interfaceArgumentMismatch _ object _ _ _ => some object
  | .notAnInterface type _ => some type
  | .undeclaredType _ (.implementsClause type) => some type
  | _ => none

theorem Problem.blamed?_of_requirement {problem : Problem} {object field : String}
    (h : problem.requirement? = some (object, field)) : problem.blamed? = some object := by
  cases problem with
  | missingInterfaceField | interfaceFieldMismatch | interfaceArgumentMismatch =>
    obtain ⟨rfl, -⟩ := Prod.mk.inj (Option.some.inj h)
    rfl
  | _ => cases h

namespace Catalog

/-- Fields that the interfaces of an object have and the object lacks. -/
structure Supplies (catalog : Catalog) (fields : Table FieldSet) (object : String)
    (own supplied : FieldSet) : Prop where
  once : (Table.keys supplied).Nodup
  lacked : ∀ field ∈ supplied, field.1 ∉ Table.keys own
  required : ∀ field ∈ supplied, ∃ interfaces, catalog.interfacesOf object = .ok interfaces ∧
    ∃ interface ∈ interfaces, ∃ set, Table.get? fields interface = some set ∧ field ∈ set

/-- The sets of objects may have grown by supplied fields at their front; all else is as before. -/
structure Completes (catalog : Catalog) (before after : Table FieldSet) : Prop where
  keys : Table.keys after = Table.keys before
  others : ∀ name entry, catalog.get? name = some entry → entry.kind ≠ .object →
    Table.get? after name = Table.get? before name
  objects : ∀ object ∈ Table.keys (catalog.typesOfKind .object), ∀ own,
    Table.get? before object = some own → ∃ supplied,
      Table.get? after object = some (supplied ++ own) ∧
        catalog.Supplies before object own supplied

end Catalog

namespace Requirement

variable {catalog : Catalog} {effective : Table FieldSet}

theorem completed_eq_append {own supplied : FieldSet} (hown : own.WellKeyed)
    (honce : (Table.keys supplied).Nodup)
    (hlacked : ∀ field ∈ supplied, field.1 ∉ Table.keys own) :
    completed own supplied = supplied ++ own := by
  have hdistinct : (Table.keys supplied ++ own.map Prod.fst).Nodup := by
    rw [List.nodup_append]
    refine ⟨honce, hown.nodup, ?_⟩
    rintro name hname other hother rfl
    obtain ⟨field, hfield, rfl⟩ := List.mem_map.mp hname
    exact hlacked field hfield hother
  rw [completed]
  split
  next he => rw [List.isEmpty_iff.mp he, List.nil_append]
  next =>
    rw [Table.insertAll, Table.foldl_insert hdistinct]
    exact congrArg _ (List.map_id own)

end Requirement

namespace Fulfilment

open Requirement

variable {catalog : Catalog} {effective : Table FieldSet} {inherit : Bool}

theorem suppliedTo_supplies
    (hkeyed : ∀ name fields, Table.get? effective name = some fields → fields.WellKeyed)
    {object : String} {interfaces : List String} (hi : catalog.interfacesOf object = .ok interfaces)
    (own : FieldSet) :
    catalog.Supplies effective object own
      (suppliedTo catalog effective inherit interfaces own) := by
  have honce : (Table.keys (suppliedTo catalog effective inherit interfaces own)).Nodup :=
    (suppliedTo_wellKeyed hkeyed interfaces own).nodup
  rw [suppliedTo] at honce ⊢
  split at honce
  next hinherit =>
    rw [if_pos hinherit]
    refine ⟨honce, fun field hfield => (mem_suppliedFields field hfield).1, fun field hfield => ?_⟩
    obtain ⟨-, interface, hrequired⟩ := mem_suppliedFields field hfield
    obtain ⟨hinterface, set, hset, hmem⟩ := mem_requiredFields.mp hrequired
    exact ⟨interfaces, hi, interface, hinterface, set, hset, hmem⟩
  next hinherit =>
    rw [if_neg hinherit]
    exact ⟨List.nodup_nil, by simp, by simp⟩

/-- What an object is left with are its own fields after those it is supplied with. -/
theorem exists_settledFields
    (hkeyed : ∀ name fields, Table.get? effective name = some fields → fields.WellKeyed)
    {object : String} {own : FieldSet} (hown : Table.get? effective object = some own) :
    ∃ supplied, settledFields catalog effective inherit object own = supplied ++ own ∧
      catalog.Supplies effective object own supplied := by
  have hnothing : catalog.Supplies effective object own [] :=
    ⟨List.nodup_nil, by simp, by simp⟩
  rw [settledFields]
  split
  next => exact ⟨[], rfl, hnothing⟩
  next interfaces hi =>
    split
    next =>
      have hsupplies : catalog.Supplies effective object own
          (suppliedTo catalog effective inherit interfaces own) :=
        suppliedTo_supplies hkeyed hi own
      exact ⟨_, completed_eq_append (hkeyed object own hown) hsupplies.once hsupplies.lacked,
        hsupplies⟩
    next => exact ⟨[], rfl, hnothing⟩

/-- Nothing is done to an object with a problem of its own. -/
theorem settledFields_of_ne_nil {object : String} {own : FieldSet}
    (h : objectProblems catalog effective inherit object ≠ []) :
    settledFields catalog effective inherit object own = own := by
  rw [settledFields]
  split
  next => rfl
  next => rw [if_neg h]

/-- Two runs over sets of the same types record the same. -/
theorem run_relation_congr (hn : (Table.keys catalog.types).Nodup) {other : Table FieldSet}
    (h : ∀ object, recorded? catalog other object = recorded? catalog effective object)
    (again : Bool) :
    (run catalog other again).relation = (run catalog effective inherit).relation := by
  have hsame : recorded? catalog other = recorded? catalog effective := funext h
  have hinterfaces : (run catalog other again).relation.interfaces =
      (run catalog effective inherit).relation.interfaces := by
    rw [run_interfaces _ _ _ hn, run_interfaces _ _ _ hn, hsame]
  have himplementers : (run catalog other again).relation.implementers =
      (run catalog effective inherit).relation.implementers := by
    rw [run_implementers _ _ _ hn, run_implementers _ _ _ hn, hsame]
  have hancestors : (run catalog other again).relation.ancestors =
      (run catalog effective inherit).relation.ancestors := by
    rw [run_ancestors _ _ _ hn, run_ancestors _ _ _ hn]
  calc (run catalog other again).relation
      = ⟨(run catalog effective inherit).relation.interfaces,
          (run catalog effective inherit).relation.implementers,
          (run catalog effective inherit).relation.ancestors⟩ := by
        rw [← hinterfaces, ← himplementers, ← hancestors]
    _ = (run catalog effective inherit).relation := rfl

theorem blamed_of_implementedBy
    (hlineages : ∀ name ∈ Table.keys catalog.types, ∃ chain, catalog.IsLineage name chain)
    {type interface : String} {problem : Problem}
    (h : catalog.implementedBy type interface = .error problem) :
    problem.blamed? = some type := by
  rw [Catalog.implementedBy] at h
  split at h
  next => cases h; rfl
  next entry hentry =>
    split at h
    next => cases h; rfl
    next =>
      obtain ⟨chain, hchain⟩ := hlineages interface (Table.mem_keys_of_get? hentry)
      rw [Catalog.lineage_eq_ok_iff.mpr hchain] at h
      cases h

theorem blamed_of_violations {object : String} {interfaces : List String}
    {own supplied : FieldSet} {problem : Problem}
    (h : problem ∈ violations catalog effective object interfaces own supplied) :
    problem.blamed? = some object := by
  obtain ⟨_, -, hfound⟩ := List.mem_flatMap.mp h
  rcases requirement_of_fieldViolations hfound with habout | habout
  · exact Problem.blamed?_of_requirement habout
  · exact Problem.blamed?_of_requirement habout

/-- A problem is found in an object that has problems of its own: in the one it has come up with or
in one of its ancestors. -/
theorem exists_blamed (hn : (Table.keys catalog.types).Nodup)
    (hlineages : ∀ name ∈ Table.keys catalog.types, ∃ chain, catalog.IsLineage name chain)
    {object : String} (hobject : object ∈ Table.keys (catalog.typesOfKind .object))
    {problem : Problem} (h : problem ∈ objectProblems catalog effective inherit object) :
    ∃ name ∈ Table.keys (catalog.typesOfKind .object), problem.blamed? = some name ∧
      objectProblems catalog effective inherit name ≠ [] := by
  obtain ⟨entry, hentry, hkind⟩ := (Catalog.mem_keys_typesOfKind hn).mp hobject
  obtain ⟨chain, hchain⟩ := hlineages object (Table.mem_keys_of_get? hentry)
  have hproblems := h
  rw [objectProblems, Catalog.interfacesOf_of_isLineage hchain] at h
  split at h
  next found hfound =>
    split at hfound
    next => cases hfound
    next =>
      cases hfound
      obtain ⟨⟨type, interface⟩, hclause, hp⟩ := List.mem_filterMap.mp h
      have hblamed := blamed_of_implementedBy hlineages (problemOf_eq_some_iff.mp hp)
      obtain ⟨htype, hlisted⟩ := Catalog.mem_implementsClauses.mp hclause
      obtain ⟨other, hother, hsame⟩ := hchain.declared hentry type htype
      have hmember : type ∈ Table.keys (catalog.typesOfKind .object) :=
        (Catalog.mem_keys_typesOfKind hn).mpr ⟨other, hother, hsame.trans hkind⟩
      obtain ⟨below, above, rfl⟩ := List.append_of_mem htype
      have hself : (type, interface) ∈ catalog.implementsClauses (type :: above) :=
        Catalog.mem_implementsClauses.mpr ⟨List.mem_cons_self, hlisted⟩
      have hown : problem ∈ catalog.clauseProblems (type :: above) :=
        List.mem_filterMap.mpr ⟨_, hself, hp⟩
      refine ⟨type, hmember, hblamed, ?_⟩
      rw [objectProblems, Catalog.interfacesOf_of_isLineage hchain.suffix,
        if_neg (List.ne_nil_of_mem hown)]
      exact List.ne_nil_of_mem hown
  next =>
    split at h
    next => cases h
    next => exact ⟨object, hobject, blamed_of_violations h, List.ne_nil_of_mem hproblems⟩

section

variable {other : Table FieldSet} (hothers : catalog.AgreeOnOthers other effective)

include hothers

theorem fulfils_of_others {candidate required : FieldDeclaration}
    (h : Fulfils catalog effective candidate required) :
    Fulfils catalog other candidate required := by
  refine ⟨h.type, ?_⟩
  rw [argumentTypes_of_others hothers, argumentTypes_of_others hothers]
  exact h.arguments

/-- What has been supplied stands for the required fields as it did before. -/
theorem violations_again {object : String} {interfaces : List String}
    (hi : catalog.interfacesOf object = .ok interfaces) {own supplied : FieldSet}
    (hown : own.WellKeyed)
    (h : violations catalog effective object interfaces own supplied = []) (again : FieldSet) :
    violations catalog other object interfaces (completed own supplied) again = [] := by
  rw [violations, requiredFields_of_others hothers hi]
  rw [violations, List.flatMap_eq_nil_iff] at h
  rw [List.flatMap_eq_nil_iff]
  rintro ⟨interface, name, required⟩ hrequired
  obtain ⟨found, hfound, hfulfils⟩ := fieldViolations_eq_nil_iff.mp (h _ hrequired)
  refine fieldViolations_eq_nil_iff.mpr ⟨found, ?_, fulfils_of_others hothers hfulfils⟩
  rw [candidate?, get?_completed hown, hfound, Option.some_or]

theorem suppliedTo_again {object : String} {interfaces : List String}
    (hi : catalog.interfacesOf object = .ok interfaces) {own supplied : FieldSet}
    (hown : own.WellKeyed)
    (h : violations catalog effective object interfaces own supplied = []) (again : Bool) :
    suppliedTo catalog other again interfaces (completed own supplied) = [] := by
  rw [suppliedTo]
  split
  next =>
    rw [suppliedFields_eq_nil_iff, requiredFields_of_others hothers hi]
    rintro ⟨interface, name, required⟩ hrequired
    rw [violations, List.flatMap_eq_nil_iff] at h
    obtain ⟨found, hfound, -⟩ := fieldViolations_eq_nil_iff.mp (h _ hrequired)
    rw [← get?_completed hown] at hfound
    exact Table.mem_keys_of_get? hfound
  next => rfl

variable (hkeyed : ∀ name fields, Table.get? effective name = some fields → fields.WellKeyed)
  {object : String} (hclean : objectProblems catalog effective inherit object = [])
  (hsettled : Table.get? other object =
    (Table.get? effective object).map (settledFields catalog effective inherit object))

include hkeyed hclean hsettled

theorem objectProblems_again (again : Bool) :
    objectProblems catalog other again object = [] := by
  obtain ⟨interfaces, hi, hviolations⟩ := objectProblems_eq_nil_iff.mp hclean
  refine objectProblems_eq_nil_iff.mpr ⟨interfaces, hi, fun full hfull => ?_⟩
  rw [hsettled] at hfull
  obtain ⟨own, hown, rfl⟩ := Option.map_eq_some_iff.mp hfull
  rw [settledFields_of_fine hclean hi]
  exact violations_again hothers hi (hkeyed object own hown) (hviolations own hown) _

theorem settledFields_again (again : Bool) {full : FieldSet}
    (hfull : Table.get? other object = some full) :
    settledFields catalog other again object full = full := by
  have hagain := objectProblems_again hothers hkeyed hclean hsettled again
  obtain ⟨interfaces, hi, hviolations⟩ := objectProblems_eq_nil_iff.mp hclean
  rw [hsettled] at hfull
  obtain ⟨own, hown, rfl⟩ := Option.map_eq_some_iff.mp hfull
  rw [settledFields_of_fine hagain hi, settledFields_of_fine hclean hi,
    suppliedTo_again hothers hi (hkeyed object own hown) (hviolations own hown) again]
  rfl

end

section

variable (hn : (Table.keys catalog.types).Nodup)

include hn

theorem run_completes
    (hkeyed : ∀ name fields, Table.get? effective name = some fields → fields.WellKeyed) :
    catalog.Completes effective (run catalog effective inherit).effective := by
  refine ⟨keys_run_effective _ _ _ hn, agreeOnOthers_run _ _ _ hn, ?_⟩
  intro object hobject own hown
  obtain ⟨supplied, hsettled, hsupplies⟩ : ∃ supplied,
      settledFields catalog effective inherit object own = supplied ++ own ∧
        catalog.Supplies effective object own supplied := exists_settledFields hkeyed hown
  refine ⟨supplied, ?_, hsupplies⟩
  rw [get?_run_effective _ _ _ hn, hown, Option.map_some, if_pos hobject, hsettled]

/-- An object with a problem keeps its fields. -/
theorem exists_blamed_of_run
    (hlineages : ∀ name ∈ Table.keys catalog.types, ∃ chain, catalog.IsLineage name chain)
    {problem : Problem} (h : problem ∈ (run catalog effective inherit).problems) :
    ∃ name ∈ Table.keys (catalog.typesOfKind .object), problem.blamed? = some name ∧
      Table.get? (run catalog effective inherit).effective name = Table.get? effective name := by
  obtain ⟨object, hobject, hp⟩ := (mem_run_problems_iff hn hlineages).mp h
  obtain ⟨name, hname, hblamed, hproblems⟩ := exists_blamed hn hlineages hobject hp
  refine ⟨name, hname, hblamed, ?_⟩
  rw [get?_run_effective _ _ _ hn]
  simp only [settledFields_of_ne_nil hproblems, ite_self, Option.map_id']

theorem run_again
    (hkeyed : ∀ name fields, Table.get? effective name = some fields → fields.WellKeyed)
    (hdistinct : (Table.keys effective).Nodup)
    (hnone : (run catalog effective inherit).problems = []) (again : Bool) :
    run catalog (run catalog effective inherit).effective again =
      run catalog effective inherit := by
  obtain ⟨hchains, hfine⟩ := (run_problems_eq_nil_iff _ _ _ hn).mp hnone
  have hcompletes : catalog.Completes effective (run catalog effective inherit).effective :=
    run_completes hn hkeyed
  have hothers := hcompletes.others
  generalize hafter : (run catalog effective inherit).effective = after at hothers
  have hget (name : String) := get?_run_effective catalog effective inherit hn name
  rw [hafter] at hget
  have hsettled : ∀ object ∈ Table.keys (catalog.typesOfKind .object),
      Table.get? after object =
        (Table.get? effective object).map (settledFields catalog effective inherit object) := by
    intro object hobject
    rw [hget]
    simp only [if_pos hobject]
  have hproblems : (run catalog after again).problems = [] :=
    (run_problems_eq_nil_iff _ _ _ hn).mpr ⟨hchains, fun object hobject =>
      objectProblems_again hothers hkeyed (hfine object hobject) (hsettled object hobject) again⟩
  have hrelation : (run catalog after again).relation =
      (run catalog effective inherit).relation := by
    refine run_relation_congr hn (fun object => ?_) again
    rw [recorded?, recorded?, hget]
    simp only [Option.map_map, Function.comp_def]
  have hsets : (run catalog after again).effective = after := by
    have hkeys := keys_run_effective catalog effective inherit hn
    rw [hafter] at hkeys
    refine Table.eq_of_get? (keys_run_effective _ _ _ hn) ?_ fun name => ?_
    · rw [keys_run_effective _ _ _ hn, hkeys]
      exact hdistinct
    · rw [get?_run_effective _ _ _ hn]
      cases hset : Table.get? after name with
      | none => rfl
      | some own =>
        rw [Option.map_some]
        split
        next hobject =>
          rw [settledFields_again hothers hkeyed (hfine name hobject) (hsettled name hobject)
            again hset]
        next => rfl
  calc run catalog after again
      = ⟨(run catalog effective inherit).relation, after,
          (run catalog effective inherit).problems⟩ := by
        rw [← hrelation, hnone, ← hproblems]
        exact congrArg (fun sets => Progress.mk _ sets _) hsets
    _ = run catalog effective inherit := by rw [← hafter]

end

end Fulfilment

open Fulfilment in
/-- A validation leaves every set as it is but those of objects: they may get what their interfaces
have, in front of what they have themselves, and none where a problem is found in the object.
Validating the outcome of a passed validation once more finds the same relation and leaves all as it
is. -/
theorem Catalog.validate_completes {catalog : Catalog} (hn : (Table.keys catalog.types).Nodup)
    {flattened : Table FieldSet} (hflattened : catalog.allFields = .ok flattened) (inherit : Bool) :
    catalog.Completes flattened (catalog.validate flattened inherit).2 ∧
    (∀ problem ∈ reported (catalog.validate flattened inherit).1,
      ∃ object ∈ Table.keys (catalog.typesOfKind .object), problem.blamed? = some object ∧
        Table.get? (catalog.validate flattened inherit).2 object = Table.get? flattened object) ∧
    ∀ relation, (catalog.validate flattened inherit).1 = .ok relation → ∀ again,
      catalog.validate (catalog.validate flattened inherit).2 again =
        (.ok relation, (catalog.validate flattened inherit).2) := by
  obtain ⟨hlineages, rfl⟩ := (allFields_eq_ok_iff hn).mp hflattened
  have hdistinct : (Table.keys catalog.flattened).Nodup := by
    rw [flattened, Table.keys_map]
    exact hn
  refine ⟨run_completes hn fun _ _ => wellKeyed_of_flattened, ?_, ?_⟩
  · intro problem hproblem
    rw [validate, reported_unlessProblems] at hproblem
    exact exists_blamed_of_run hn hlineages hproblem
  · intro relation hrelation again
    obtain ⟨hnone, rfl⟩ := unlessProblems_eq_ok_iff.mp hrelation
    have hagain := run_again hn (fun _ _ => wellKeyed_of_flattened) hdistinct hnone again
    rw [validate, validate, hagain, hnone]
    rfl

/-- Cats have no field of their own, and the two of their interfaces after a validation. -/
theorem Catalog.validate_completes_kennel :
    ∃ catalog flattened relation, Catalog.ofRegistry Registry.kennel = .ok catalog ∧
      (Table.keys catalog.types).Nodup ∧ catalog.allFields = .ok flattened ∧
      (Table.get? flattened "Cat").map Table.keys = some [] ∧
      (catalog.validate flattened true).1 = .ok relation ∧
      (Table.get? (catalog.validate flattened true).2 "Cat").map Table.keys =
        some ["id", "sound"] ∧
      catalog.Completes flattened (catalog.validate flattened true).2 ∧
      catalog.validate (catalog.validate flattened true).2 false =
        (.ok relation, (catalog.validate flattened true).2) := by
  have hrun : (Catalog.ofRegistry Registry.kennel).toOption.any (fun catalog =>
      catalog.allFields.toOption.any fun flattened =>
        (catalog.validate flattened true).1.toOption.any fun _ =>
          decide ((Table.get? flattened "Cat").map Table.keys = some [] ∧
            (Table.get? (catalog.validate flattened true).2 "Cat").map Table.keys =
              some ["id", "sound"])) = true := by
    decide +kernel
  obtain ⟨catalog, hcatalog, hrun⟩ := exists_ok_of_any hrun
  obtain ⟨flattened, hflattened, hrun⟩ := exists_ok_of_any hrun
  obtain ⟨relation, hrelation, hrun⟩ := exists_ok_of_any hrun
  have hcat := of_decide_eq_true hrun
  have hn := (Catalog.ofRegistry_wellNamed hcatalog).types_nodup
  have hcompletes := validate_completes hn hflattened true
  exact ⟨catalog, flattened, relation, hcatalog, hn, hflattened, hcat.1, hrelation, hcat.2,
    hcompletes.1, hcompletes.2.2 relation hrelation false⟩

end Schemata
