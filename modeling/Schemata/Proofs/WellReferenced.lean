import Schemata.Proofs.LinkedFields
import Schemata.Proofs.Naming

namespace Schemata

open PlainLinking (fieldsAt)
open Requirement (signatureOf)

/-- What is told of a name that may not stand at a position, for a field or argument of a type. -/
inductive Misplaced (catalog : Catalog) (owner field name : String) (position : Position) :
    Problem → Prop
  | unknown (missing : catalog.kindOf name = none) :
      Misplaced catalog owner field name position (.unresolvableReference owner field name)
  | refused {kind : NamedKind} (known : catalog.kindOf name = some kind)
      (refuses : position.accepts kind = false) :
      Misplaced catalog owner field name position
        (.invalidPosition owner field name kind position)

/-- What can be wrong with a reference, and how it is told: the type is the one on which the field
appears, or the argument set to which it belongs. -/
inductive Misreference (catalog : Catalog) (effective : Table FieldSet) : Problem → Prop
  | output {type : String} {entry : TypeEntry} {seen : SeenField} {problem : Problem}
      (declared : (type, entry) ∈ catalog.types) (kind : entry.kind.isOutput = true)
      (field : seen ∈ fieldsAt effective type)
      (misplaced : Misplaced catalog type seen.declaration.name
        (signatureOf catalog seen.declaration).namedType .output problem) :
      Misreference catalog effective problem
  | argument {type : String} {entry : TypeEntry} {seen : SeenField} {argument : FieldDeclaration}
      {problem : Problem} (declared : (type, entry) ∈ catalog.types)
      (kind : entry.kind.isOutput = true) (field : seen ∈ fieldsAt effective type)
      (source : .single argument ∈ seen.declaration.sources)
      (misplaced : Misplaced catalog type argument.name
        (signatureOf catalog argument).namedType .input problem) :
      Misreference catalog effective problem
  | source {type : String} {entry : TypeEntry} {seen : SeenField} {reference : TypeName}
      (declared : (type, entry) ∈ catalog.types) (kind : entry.kind.isOutput = true)
      (field : seen ∈ fieldsAt effective type)
      (source : .set reference ∈ seen.declaration.sources)
      (noSet : catalog.kindOf (reference.resolve catalog.elements) ≠
        some (.declared .argumentSet)) :
      Misreference catalog effective
        (.notAnArgumentSet type seen.declaration.name (reference.resolve catalog.elements))
  | input {type : String} {entry : TypeEntry} {seen : SeenField} {problem : Problem}
      (declared : (type, entry) ∈ catalog.types) (kind : entry.kind.isOutput = false)
      (field : seen ∈ fieldsAt effective type)
      (misplaced : Misplaced catalog type seen.declaration.name
        (signatureOf catalog seen.declaration).namedType .input problem) :
      Misreference catalog effective problem
  | resolver {type : String} {entry : TypeEntry} {seen : SeenField}
      (declared : (type, entry) ∈ catalog.types) (kind : entry.kind.isOutput = false)
      (field : seen ∈ fieldsAt effective type) (bound : seen.declaration.resolver ≠ none) :
      Misreference catalog effective (.misplacedResolver type entry.kind seen.declaration.name)
  | unknownMember {union : String} {entry : UnionEntry} {member : String}
      (declared : (union, entry) ∈ catalog.unions) (listed : member ∈ entry.members)
      (missing : catalog.kindOf member = none) :
      Misreference catalog effective (.undeclaredType member (.unionMembers union))
  | member {union : String} {entry : UnionEntry} {member : String} {kind : NamedKind}
      (declared : (union, entry) ∈ catalog.unions) (listed : member ∈ entry.members)
      (known : catalog.kindOf member = some kind) (noObject : kind ≠ .declared .object) :
      Misreference catalog effective (.invalidUnionMember union member)

/-- Every name stands for something allowed where it stands, and only output fields are bound to
resolvers. -/
structure WellReferenced (catalog : Catalog) (effective : Table FieldSet) : Prop where
  outputs : ∀ type ∈ catalog.types, type.2.kind.isOutput = true →
    ∀ seen ∈ fieldsAt effective type.1,
      catalog.Admits .output (signatureOf catalog seen.declaration).namedType
  arguments : ∀ type ∈ catalog.types, type.2.kind.isOutput = true →
    ∀ seen ∈ fieldsAt effective type.1, ∀ argument, .single argument ∈ seen.declaration.sources →
      catalog.Admits .input (signatureOf catalog argument).namedType
  sources : ∀ type ∈ catalog.types, type.2.kind.isOutput = true →
    ∀ seen ∈ fieldsAt effective type.1, ∀ reference, .set reference ∈ seen.declaration.sources →
      catalog.kindOf (reference.resolve catalog.elements) = some (.declared .argumentSet)
  inputs : ∀ type ∈ catalog.types, type.2.kind.isOutput = false →
    ∀ seen ∈ fieldsAt effective type.1, seen.declaration.resolver = none ∧
      catalog.Admits .input (signatureOf catalog seen.declaration).namedType
  members : ∀ union ∈ catalog.unions, ∀ member ∈ union.2.members,
    catalog.kindOf member = some (.declared .object)

variable {catalog : Catalog} {effective : Table FieldSet}

theorem exists_misplaced_iff {owner field name : String} {position : Position} :
    (∃ problem, Misplaced catalog owner field name position problem) ↔
      ¬catalog.Admits position name := by
  constructor
  · rintro ⟨problem, h⟩ ⟨kind, hkind, haccepts⟩
    cases h with
    | unknown missing =>
      rw [missing] at hkind
      cases hkind
    | refused known refuses =>
      obtain rfl := Option.some.inj (known.symm.trans hkind)
      rw [haccepts] at refuses
      cases refuses
  · intro h
    cases hkind : catalog.kindOf name with
    | none => exact ⟨_, .unknown hkind⟩
    | some kind =>
      refine ⟨_, .refused hkind (Bool.eq_false_iff.mpr fun haccepts => h ⟨kind, hkind, haccepts⟩)⟩

namespace Linking

theorem signature_eq_error_iff {owner field : String} {type : TypeExpr} {position : Position}
    {problem : Problem} :
    signature catalog owner field type position = .error problem ↔
      Misplaced catalog owner field (type.signature catalog.elements).namedType position
        problem := by
  simp only [signature]
  generalize (type.signature catalog.elements).namedType = name
  constructor
  · intro h
    split at h
    next hkind =>
      cases h
      exact .unknown hkind
    next kind hkind =>
      split at h
      next => cases h
      next hrefuses =>
        cases h
        exact .refused hkind (Bool.not_eq_true _ ▸ hrefuses)
  · intro h
    cases h with
    | unknown missing => rw [missing]
    | refused known refuses =>
      rw [known]
      simp only [refuses, Bool.false_eq_true, if_false]

theorem linkArgument_eq_error_iff {owner : String} {field : FieldDeclaration} {problem : Problem} :
    linkArgument catalog owner field = .error problem ↔
      Misplaced catalog owner field.name (signatureOf catalog field).namedType .input problem := by
  rw [signatureOf, ← signature_eq_error_iff, linkArgument]
  cases signature catalog owner field.name field.type .input <;> simp [Except.map]

end Linking

theorem mem_problemOf_toList {α : Type} {result : Except Problem α} {problem : Problem} :
    problem ∈ (problemOf result).toList ↔ result = .error problem :=
  Option.mem_toList.trans problemOf_eq_some_iff

namespace PlainLinking

open Linking (linkArgument_eq_error_iff signature_eq_error_iff)

theorem mem_setProblems_iff {name : String} {problem : Problem} :
    problem ∈ setProblems catalog effective name ↔ ∃ seen ∈ fieldsAt effective name,
      Misplaced catalog name seen.declaration.name (signatureOf catalog seen.declaration).namedType
        .input problem := by
  simp only [setProblems, List.mem_flatMap, mem_problemOf_toList, linkArgument_eq_error_iff]

theorem mem_resolverProblems_iff {owner : String} {kind : TypeKind} {field : FieldDeclaration}
    {problem : Problem} :
    problem ∈ resolverProblems owner kind field ↔
      field.resolver ≠ none ∧ problem = .misplacedResolver owner kind field.name := by
  rw [resolverProblems, ← Option.isSome_iff_ne_none]
  split
  next hbound => rw [List.mem_singleton, and_iff_right hbound]
  next hfree => exact iff_of_false List.not_mem_nil fun h => hfree h.1

/-- Whatever kind of input a type is, its fields are checked for bindings and for their types. -/
theorem mem_typeProblems_iff_of_input {type : String} {entry : TypeEntry}
    (hkind : entry.kind.isOutput = false) {problem : Problem} :
    problem ∈ typeProblems catalog effective (type, entry) ↔ ∃ seen ∈ fieldsAt effective type,
      (seen.declaration.resolver ≠ none ∧
        problem = .misplacedResolver type entry.kind seen.declaration.name) ∨
      Misplaced catalog type seen.declaration.name (signatureOf catalog seen.declaration).namedType
        .input problem := by
  rw [typeProblems]
  cases hk : entry.kind with
  | object | interface =>
    rw [hk] at hkind
    cases hkind
  | input =>
    simp only [inputProblems, List.mem_flatMap, List.mem_append, mem_resolverProblems_iff,
      mem_problemOf_toList, linkArgument_eq_error_iff]
  | argumentSet =>
    simp only [argumentSetProblems, List.mem_append, List.mem_flatMap, mem_resolverProblems_iff,
      mem_setProblems_iff, ← exists_or, ← and_or_left]

theorem typeProblems_of_output {type : String} {entry : TypeEntry}
    (hkind : entry.kind.isOutput = true) :
    typeProblems catalog effective (type, entry) = fieldsProblems catalog effective type := by
  rw [typeProblems]
  cases hk : entry.kind with
  | object | interface => rfl
  | input | argumentSet =>
    rw [hk] at hkind
    cases hkind

theorem mem_memberProblems_iff {union member : String} {problem : Problem} :
    problem ∈ memberProblems catalog union member ↔
      (catalog.kindOf member = none ∧ problem = .undeclaredType member (.unionMembers union)) ∨
      ∃ kind, catalog.kindOf member = some kind ∧ kind ≠ .declared .object ∧
        problem = .invalidUnionMember union member := by
  rw [memberProblems]
  cases catalog.kindOf member with
  | none => simp
  | some kind =>
    cases kind with
    | declared kind => cases kind <;> simp
    | scalar | enum | union => simp

/-- What a set contributes to a field is wrong on the set itself. -/
theorem misreference_of_set {name : String} {problem : Problem}
    (hname : catalog.kindOf name = some (.declared .argumentSet))
    (h : problem ∈ setProblems catalog effective name) :
    Misreference catalog effective problem := by
  obtain ⟨entry, hentry, hkind⟩ := Catalog.kindOf_eq_declared hname
  obtain ⟨seen, hseen, hmisplaced⟩ := mem_setProblems_iff.mp h
  exact .input (Table.mem_of_get? hentry) (by rw [hkind]; rfl) hseen hmisplaced

theorem misreference_of_field {type : String} {entry : TypeEntry} {seen : SeenField}
    {problem : Problem} (hdeclared : (type, entry) ∈ catalog.types)
    (hkind : entry.kind.isOutput = true) (hseen : seen ∈ fieldsAt effective type)
    (h : problem ∈ fieldProblems catalog effective type seen.declaration) :
    Misreference catalog effective problem := by
  rw [fieldProblems, List.mem_append, mem_problemOf_toList, signature_eq_error_iff,
    argumentProblems, List.mem_flatMap] at h
  rcases h with ⟨source, hsource, h⟩ | h
  · cases source with
    | single argument =>
      rw [sourceProblems, mem_problemOf_toList, linkArgument_eq_error_iff] at h
      exact .argument hdeclared hkind hseen hsource h
    | set reference =>
      simp only [sourceProblems] at h
      split at h
      next hset => exact misreference_of_set hset h
      next hnoSet =>
        obtain rfl := List.mem_singleton.mp h
        exact .source hdeclared hkind hseen hsource hnoSet
  · exact .output hdeclared hkind hseen h

theorem misreference_of_type {type : String} {entry : TypeEntry} {problem : Problem}
    (hdeclared : (type, entry) ∈ catalog.types)
    (h : problem ∈ typeProblems catalog effective (type, entry)) :
    Misreference catalog effective problem := by
  cases hkind : entry.kind.isOutput with
  | true =>
    rw [typeProblems_of_output hkind] at h
    obtain ⟨seen, hseen, h⟩ := List.mem_flatMap.mp h
    exact misreference_of_field hdeclared hkind hseen h
  | false =>
    obtain ⟨seen, hseen, ⟨hbound, rfl⟩ | hmisplaced⟩ := (mem_typeProblems_iff_of_input hkind).mp h
    · exact .resolver hdeclared hkind hseen hbound
    · exact .input hdeclared hkind hseen hmisplaced

theorem mem_problems_of_type {type : String} {entry : TypeEntry} {problem : Problem}
    (hdeclared : (type, entry) ∈ catalog.types)
    (h : problem ∈ typeProblems catalog effective (type, entry)) :
    problem ∈ problems catalog effective :=
  List.mem_append_left _ (List.mem_flatMap.mpr ⟨(type, entry), hdeclared, h⟩)

theorem mem_problems_of_field {type : String} {entry : TypeEntry} {seen : SeenField}
    {problem : Problem} (hdeclared : (type, entry) ∈ catalog.types)
    (hkind : entry.kind.isOutput = true) (hseen : seen ∈ fieldsAt effective type)
    (h : problem ∈ fieldProblems catalog effective type seen.declaration) :
    problem ∈ problems catalog effective := by
  refine mem_problems_of_type hdeclared ?_
  rw [typeProblems_of_output hkind]
  exact List.mem_flatMap.mpr ⟨seen, hseen, h⟩

theorem mem_problems_of_source {type : String} {entry : TypeEntry} {seen : SeenField}
    {problem : Problem} (hdeclared : (type, entry) ∈ catalog.types)
    (hkind : entry.kind.isOutput = true) (hseen : seen ∈ fieldsAt effective type)
    {source : ArgumentSource} (hsource : source ∈ seen.declaration.sources)
    (h : problem ∈ sourceProblems catalog effective type seen.declaration.name source) :
    problem ∈ problems catalog effective :=
  mem_problems_of_field hdeclared hkind hseen
    (List.mem_append_left _ (List.mem_flatMap.mpr ⟨source, hsource, h⟩))

theorem mem_problems_of_member {union : String} {entry : UnionEntry} {member : String}
    {problem : Problem} (hdeclared : (union, entry) ∈ catalog.unions)
    (hlisted : member ∈ entry.members) (h : problem ∈ memberProblems catalog union member) :
    problem ∈ problems catalog effective :=
  List.mem_append_right _ (List.mem_flatMap.mpr
    ⟨(union, entry), hdeclared, List.mem_flatMap.mpr ⟨member, hlisted, h⟩⟩)

theorem mem_problems_iff {problem : Problem} :
    problem ∈ problems catalog effective ↔ Misreference catalog effective problem := by
  constructor
  · intro h
    rcases List.mem_append.mp h with h | h
    · obtain ⟨⟨type, entry⟩, hdeclared, h⟩ := List.mem_flatMap.mp h
      exact misreference_of_type hdeclared h
    · obtain ⟨⟨union, entry⟩, hdeclared, h⟩ := List.mem_flatMap.mp h
      obtain ⟨member, hlisted, h⟩ := List.mem_flatMap.mp h
      rcases mem_memberProblems_iff.mp h with ⟨hmissing, rfl⟩ | ⟨kind, hknown, hnoObject, rfl⟩
      · exact .unknownMember hdeclared hlisted hmissing
      · exact .member hdeclared hlisted hknown hnoObject
  · intro h
    cases h with
    | output declared kind field misplaced =>
      refine mem_problems_of_field declared kind field (List.mem_append_right _ ?_)
      exact mem_problemOf_toList.mpr (signature_eq_error_iff.mpr misplaced)
    | argument declared kind field source misplaced =>
      refine mem_problems_of_source declared kind field source ?_
      exact mem_problemOf_toList.mpr (linkArgument_eq_error_iff.mpr misplaced)
    | source declared kind field source noSet =>
      refine mem_problems_of_source declared kind field source ?_
      rw [sourceProblems, if_neg noSet]
      exact List.mem_cons_self
    | input declared kind field misplaced =>
      exact mem_problems_of_type declared
        ((mem_typeProblems_iff_of_input kind).mpr ⟨_, field, Or.inr misplaced⟩)
    | resolver declared kind field bound =>
      exact mem_problems_of_type declared
        ((mem_typeProblems_iff_of_input kind).mpr ⟨_, field, Or.inl ⟨bound, rfl⟩⟩)
    | unknownMember declared listed missing =>
      exact mem_problems_of_member declared listed
        (mem_memberProblems_iff.mpr (Or.inl ⟨missing, rfl⟩))
    | member declared listed known noObject =>
      exact mem_problems_of_member declared listed
        (mem_memberProblems_iff.mpr (Or.inr ⟨_, known, noObject, rfl⟩))

end PlainLinking

theorem WellReferenced.not_misreference (h : WellReferenced catalog effective) (problem : Problem) :
    ¬Misreference catalog effective problem := by
  intro hproblem
  cases hproblem with
  | output declared kind field misplaced =>
    exact exists_misplaced_iff.mp ⟨_, misplaced⟩ (h.outputs _ declared kind _ field)
  | argument declared kind field source misplaced =>
    exact exists_misplaced_iff.mp ⟨_, misplaced⟩ (h.arguments _ declared kind _ field _ source)
  | source declared kind field source noSet =>
    exact noSet (h.sources _ declared kind _ field _ source)
  | input declared kind field misplaced =>
    exact exists_misplaced_iff.mp ⟨_, misplaced⟩ (h.inputs _ declared kind _ field).2
  | resolver declared kind field bound => exact bound (h.inputs _ declared kind _ field).1
  | unknownMember declared listed missing =>
    rw [h.members _ declared _ listed] at missing
    cases missing
  | member declared listed known noObject =>
    rw [h.members _ declared _ listed, Option.some.injEq] at known
    exact noObject known.symm

theorem wellReferenced_iff :
    WellReferenced catalog effective ↔ ∀ problem, ¬Misreference catalog effective problem := by
  refine ⟨WellReferenced.not_misreference, fun h => ⟨?_, ?_, ?_, ?_, ?_⟩⟩
  · intro type declared kind seen field
    by_contra hnot
    obtain ⟨problem, hmisplaced⟩ := exists_misplaced_iff.mpr hnot
    exact h problem (.output declared kind field hmisplaced)
  · intro type declared kind seen field argument source
    by_contra hnot
    obtain ⟨problem, hmisplaced⟩ := exists_misplaced_iff.mpr hnot
    exact h problem (.argument declared kind field source hmisplaced)
  · intro type declared kind seen field reference source
    by_contra noSet
    exact h _ (.source declared kind field source noSet)
  · intro type declared kind seen field
    constructor
    · by_contra bound
      exact h _ (.resolver declared kind field bound)
    · by_contra hnot
      obtain ⟨problem, hmisplaced⟩ := exists_misplaced_iff.mpr hnot
      exact h problem (.input declared kind field hmisplaced)
  · intro union declared member listed
    cases hkind : catalog.kindOf member with
    | none => exact absurd (.unknownMember declared listed hkind) (h _)
    | some kind =>
      by_contra hne
      exact h _ (.member declared listed hkind fun he => hne (congrArg some he))

/-- Linking finds nothing wrong with well-referenced field sets only; of others it reports all that
is wrong with them and nothing else, and no problem twice. -/
theorem typeSystem_reports (catalog : Catalog) (effective : Table FieldSet)
    (relation : InterfaceRelation) :
    let reports := ((Linking.typeSystem catalog effective relation).run {}).2.problems
    (reports = [] ↔ WellReferenced catalog effective) ∧
    (∀ problem, problem ∈ reports ↔ Misreference catalog effective problem) ∧ reports.Nodup := by
  obtain ⟨sets, hrun, -⟩ := Linking.typeSystem_run_foldl catalog effective relation
  have hmem (problem : Problem) :
      problem ∈ noteAll [] (PlainLinking.problems catalog effective) ↔
        Misreference catalog effective problem := by
    rw [mem_noteAll, PlainLinking.mem_problems_iff]
    exact or_iff_right List.not_mem_nil
  rw [hrun]
  refine ⟨?_, hmem, nodup_noteAll List.nodup_nil⟩
  rw [List.eq_nil_iff_forall_not_mem, wellReferenced_iff]
  exact forall_congr' fun problem => not_congr (hmem problem)

-- Two fields take their arguments from a set that has a field of an undeclared type.
example :
    let listed (name : String) : FieldDeclaration :=
      (FieldDeclaration.new name (.named (.literal "Int"))).addSource (.set (.literal "Listing"))
    let order : FieldDeclaration := .new "order" (.named (.literal "Order"))
    let catalog : Catalog :=
      { types := [("Shelf", ⟨.object, none, none, [], [], none, none⟩),
          ("Listing", ⟨.argumentSet, none, none, [], [], none, none⟩)] }
    let effective : Table FieldSet :=
      [("Shelf", [("books", ⟨"Shelf", listed "books"⟩), ("maps", ⟨"Shelf", listed "maps"⟩)]),
        ("Listing", [("order", ⟨"Listing", order⟩)])]
    ((Linking.typeSystem catalog effective {}).run {}).2.problems =
      [.unresolvableReference "Listing" "order" "Order"] := by
  decide +kernel

end Schemata
