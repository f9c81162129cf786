import Schemata.Proofs.PlainLinking
import Schemata.Proofs.Relation
import Schemata.Proofs.Requirement

namespace Schemata

open Requirement (signatureOf sourceTypes argumentTypes)

/-- A name that stands for something allowed at a position. -/
def Catalog.Admits (catalog : Catalog) (position : Position) (name : String) : Prop :=
  ∃ kind, catalog.kindOf name = some kind ∧ position.accepts kind = true

namespace Linking

variable {catalog : Catalog}

theorem signature_eq_ok_iff {owner field : String} {type : TypeExpr} {position : Position}
    {result : Signature} :
    signature catalog owner field type position = .ok result ↔
      type.signature catalog.elements = result ∧ catalog.Admits position result.namedType := by
  simp only [signature, Catalog.Admits]
  split
  next hkind =>
    refine ⟨nofun, ?_⟩
    rintro ⟨rfl, kind, hk, -⟩
    rw [hkind] at hk
    cases hk
  next kind hkind =>
    split
    next haccepts =>
      refine ⟨fun h => ?_, fun h => congrArg Except.ok h.1⟩
      obtain rfl := Except.ok.inj h
      exact ⟨rfl, kind, hkind, haccepts⟩
    next hrejects =>
      refine ⟨nofun, ?_⟩
      rintro ⟨rfl, other, hother, haccepts⟩
      obtain rfl := Option.some.inj (hkind.symm.trans hother)
      exact absurd haccepts hrejects

def argumentOf (catalog : Catalog) (field : FieldDeclaration) : ModelArgument :=
  ⟨field.name, signatureOf catalog field, field.description, field.default⟩

theorem linkArgument_eq_ok_iff {owner : String} {field : FieldDeclaration}
    {argument : ModelArgument} :
    linkArgument catalog owner field = .ok argument ↔
      argument = argumentOf catalog field ∧
        catalog.Admits .input (signatureOf catalog field).namedType := by
  rw [linkArgument]
  cases hs : signature catalog owner field.name field.type .input with
  | error problem =>
    refine ⟨nofun, fun h => ?_⟩
    rw [signature_eq_ok_iff.mpr ⟨rfl, h.2⟩] at hs
    cases hs
  | ok type =>
    obtain ⟨rfl, hadmits⟩ := signature_eq_ok_iff.mp hs
    refine ⟨fun h => ⟨(Except.ok.inj h).symm, hadmits⟩, ?_⟩
    rintro ⟨rfl, -⟩
    rfl

end Linking

theorem mem_toOption_toList {ε α : Type} {result : Except ε α} {value : α} :
    value ∈ result.toOption.toList ↔ result = .ok value :=
  Option.mem_toList.trans mem_toOption

namespace PlainLinking

variable {catalog : Catalog} {effective : Table FieldSet}

open Linking (argumentOf insertArguments linkArgument_eq_ok_iff signature_eq_ok_iff)

theorem admits_of_mem_inputs {owner : String} {fields : List SeenField} {argument : ModelArgument}
    (h : argument ∈ fields.filterMap fun field =>
      (Linking.linkArgument catalog owner field.declaration).toOption) :
    catalog.Admits .input argument.type.namedType := by
  obtain ⟨field, -, hlinked⟩ := List.mem_filterMap.mp h
  rw [← Option.mem_toList, mem_toOption_toList, linkArgument_eq_ok_iff] at hlinked
  obtain ⟨rfl, hadmits⟩ := hlinked
  exact hadmits

theorem admits_of_mem_source {owner : String} {source : ArgumentSource} {argument : ModelArgument}
    (h : argument ∈ sourceArguments catalog effective owner source) :
    catalog.Admits .input argument.type.namedType := by
  cases source with
  | single declared =>
    obtain ⟨rfl, hadmits⟩ := linkArgument_eq_ok_iff.mp (mem_toOption_toList.mp h)
    exact hadmits
  | set reference =>
    simp only [sourceArguments] at h
    split at h
    next => exact admits_of_mem_inputs h
    next => cases h

theorem forall_mem_insertArguments {P : String × ModelArgument → Prop} {found : Table ModelArgument}
    {added : List ModelArgument} (hfound : ∀ entry ∈ found, P entry)
    (hadded : ∀ argument ∈ added, P (argument.name, argument)) :
    ∀ entry ∈ insertArguments found added, P entry := by
  induction added generalizing found with
  | nil => exact hfound
  | cons argument rest ih =>
    rw [List.forall_mem_cons] at hadded
    exact ih (Table.forall_mem_insert hfound hadded.1) hadded.2

/-- The arguments of all sources go into one table. -/
theorem argumentTable_eq (owner : String) (field : FieldDeclaration) :
    argumentTable catalog effective owner field =
      insertArguments [] (field.sources.flatMap (sourceArguments catalog effective owner)) :=
  List.foldl_flatMap.symm

theorem forall_mem_argumentTable {P : String × ModelArgument → Prop} {owner : String}
    {field : FieldDeclaration}
    (h : ∀ source, ∀ argument ∈ sourceArguments catalog effective owner source,
      P (argument.name, argument)) :
    ∀ entry ∈ argumentTable catalog effective owner field, P entry := by
  rw [argumentTable_eq]
  refine forall_mem_insertArguments (List.forall_mem_nil _) fun argument hargument => ?_
  obtain ⟨source, -, hsource⟩ := List.mem_flatMap.mp hargument
  exact h source argument hsource

/-- An argument stands under its own name. -/
theorem argumentTable_named {owner : String} {field : FieldDeclaration} :
    ∀ entry ∈ argumentTable catalog effective owner field, entry.2.name = entry.1 :=
  forall_mem_argumentTable (P := fun entry => entry.2.name = entry.1) fun _ _ _ => rfl

/-- A linked field is of an output type and takes arguments of input types. -/
theorem linkField_admits {owner declaredBy : String} {field : FieldDeclaration}
    {linked : ModelField} (h : linkField catalog effective owner declaredBy field = some linked) :
    catalog.Admits .output linked.type.namedType ∧
      ∀ argument ∈ linked.arguments, catalog.Admits .input argument.type.namedType := by
  obtain ⟨type, htype, rfl⟩ := Option.map_eq_some_iff.mp h
  rw [← Option.mem_toList, mem_toOption_toList, signature_eq_ok_iff] at htype
  refine ⟨htype.2, fun argument harg => ?_⟩
  obtain ⟨name, hentry⟩ := Table.mem_values_iff.mp harg
  exact forall_mem_argumentTable (P := fun entry => catalog.Admits .input entry.2.type.namedType)
    (fun _ _ => admits_of_mem_source) _ hentry

theorem keys_insertArguments (found : Table ModelArgument) (added : List ModelArgument) :
    Table.keys (insertArguments found added) =
      mergeNames (Table.keys found) (added.map ModelArgument.name) := by
  induction added generalizing found with
  | nil => rfl
  | cons argument rest ih =>
    rw [insertArguments, List.foldl_cons]
    exact (ih _).trans (by rw [Table.keys_insert]; rfl)

theorem nodup_keys_argumentTable {owner : String} {field : FieldDeclaration} :
    (Table.keys (argumentTable catalog effective owner field)).Nodup := by
  rw [argumentTable_eq, keys_insertArguments]
  exact nodup_mergeNames List.nodup_nil _

theorem names_argumentTable {owner : String} {field : FieldDeclaration} :
    (Table.values (argumentTable catalog effective owner field)).map ModelArgument.name =
      Table.keys (argumentTable catalog effective owner field) := by
  rw [Table.values, Table.keys, List.map_map]
  exact List.map_congr_left argumentTable_named

/-- A field takes no two arguments of one name. -/
theorem argumentNames_nodup {owner declaredBy : String} {field : FieldDeclaration}
    {linked : ModelField} (h : linkField catalog effective owner declaredBy field = some linked) :
    (linked.arguments.map ModelArgument.name).Nodup := by
  obtain ⟨type, -, rfl⟩ := Option.map_eq_some_iff.mp h
  rw [names_argumentTable]
  exact nodup_keys_argumentTable

theorem signature_toOption (owner other : String) (field : String) (type : TypeExpr)
    (position : Position) :
    (Linking.signature catalog owner field type position).toOption =
      (Linking.signature catalog other field type position).toOption := by
  rw [Linking.signature, Linking.signature]
  cases catalog.kindOf (type.signature catalog.elements).namedType with
  | none => rfl
  | some kind =>
    dsimp only
    split <;> rfl

theorem linkArgument_toOption (owner other : String) (argument : FieldDeclaration) :
    (Linking.linkArgument catalog owner argument).toOption =
      (Linking.linkArgument catalog other argument).toOption := by
  have hmap (result : Except Problem Signature) (f : Signature → ModelArgument) :
      (result.map f).toOption = result.toOption.map f := by
    cases result <;> rfl
  rw [Linking.linkArgument, Linking.linkArgument, hmap, hmap, signature_toOption owner other]

theorem linkField_owner (owner other declaredBy : String) (field : FieldDeclaration) :
    linkField catalog effective owner declaredBy field =
      linkField catalog effective other declaredBy field := by
  have hsource : sourceArguments catalog effective owner =
      sourceArguments catalog effective other := by
    funext source
    cases source with
    | single argument => rw [sourceArguments, sourceArguments, linkArgument_toOption owner other]
    | set reference => rfl
  rw [linkField, linkField, argumentTable, argumentTable, hsource, signature_toOption owner other]

def typed (argument : ModelArgument) : String × Signature :=
  (argument.name, argument.type)

theorem linkArgument_toOption_of_fine {owner : String} {declared : FieldDeclaration}
    (h : problemOf (Linking.linkArgument catalog owner declared) = none) :
    (Linking.linkArgument catalog owner declared).toOption = some (argumentOf catalog declared) := by
  obtain ⟨argument, hargument⟩ := problemOf_eq_none_iff.mp h
  rw [hargument, (linkArgument_eq_ok_iff.mp hargument).1]
  rfl

/-- All fields of a set with which nothing is wrong become arguments. -/
theorem setArguments_of_fine {name : String} (h : setProblems catalog effective name = []) :
    setArguments catalog effective name =
      (fieldsAt effective name).map fun field => argumentOf catalog field.declaration := by
  simp only [setProblems, List.flatMap_eq_nil_iff, Option.toList_eq_nil_iff] at h
  rw [setArguments, ← List.filterMap_eq_map]
  exact List.filterMap_congr fun field hfield => linkArgument_toOption_of_fine (h field hfield)

theorem sourceArguments_typed {owner field : String} {source : ArgumentSource}
    (hkeyed : ∀ name fields, Table.get? effective name = some fields → fields.WellKeyed)
    (h : sourceProblems catalog effective owner field source = []) :
    (sourceArguments catalog effective owner source).map typed =
      sourceTypes catalog effective source := by
  cases source with
  | single declared =>
    rw [sourceProblems, Option.toList_eq_nil_iff] at h
    rw [sourceArguments, linkArgument_toOption_of_fine h]
    rfl
  | set reference =>
    simp only [sourceArguments, sourceProblems, sourceTypes] at h ⊢
    split at h
    next hset =>
      rw [if_pos hset, if_pos hset, setArguments_of_fine h, fieldsAt]
      cases hfields : Table.get? effective (reference.resolve catalog.elements) with
      | none => rfl
      | some fields =>
        rw [Option.getD_some, Table.values, List.map_map, List.map_map]
        apply List.map_congr_left
        intro entry hentry
        exact Prod.ext ((hkeyed _ fields hfields).named entry hentry) rfl
    next => cases h

theorem map_insertArguments (found : Table ModelArgument) (added : List ModelArgument) :
    (insertArguments found added).map (fun entry => (entry.1, entry.2.type)) =
      Table.insertAll (found.map fun entry => (entry.1, entry.2.type)) (added.map typed) := by
  induction added generalizing found with
  | nil => rfl
  | cons argument rest ih =>
    have hstep := ih (Table.insert found argument.name argument)
    rw [Table.map_insert] at hstep
    exact hstep

theorem argumentTable_typed {owner : String} {field : FieldDeclaration}
    (hkeyed : ∀ name fields, Table.get? effective name = some fields → fields.WellKeyed)
    (h : argumentProblems catalog effective owner field = []) :
    (argumentTable catalog effective owner field).map (fun entry => (entry.1, entry.2.type)) =
      argumentTypes catalog effective field := by
  rw [argumentProblems, List.flatMap_eq_nil_iff] at h
  unfold argumentTable argumentTypes
  generalize field.sources = sources at h
  induction sources using List.reverseRecOn with
  | nil => rfl
  | append_singleton sources source ih =>
    rw [List.forall_mem_append, List.forall_mem_singleton] at h
    rw [List.foldl_concat, List.foldl_concat, map_insertArguments, ih h.1, sourceArguments_typed hkeyed h.2]

/-- Linking and validation see the same arguments. -/
theorem values_argumentTable_typed {owner : String} {field : FieldDeclaration}
    (hkeyed : ∀ name fields, Table.get? effective name = some fields → fields.WellKeyed)
    (h : argumentProblems catalog effective owner field = []) :
    (Table.values (argumentTable catalog effective owner field)).map typed =
      argumentTypes catalog effective field := by
  rw [← argumentTable_typed hkeyed h, Table.values, List.map_map]
  apply List.map_congr_left
  intro entry hentry
  rw [Function.comp_apply, typed, argumentTable_named entry hentry]

/-- What a field with which nothing is wrong becomes. -/
structure IsLinked (catalog : Catalog) (effective : Table FieldSet) (field : FieldDeclaration)
    (linked : ModelField) : Prop where
  name : linked.name = field.name
  type : linked.type = signatureOf catalog field
  arguments : linked.arguments.map typed = argumentTypes catalog effective field

theorem exists_isLinked {owner : String} (declaredBy : String) {field : FieldDeclaration}
    (hkeyed : ∀ name fields, Table.get? effective name = some fields → fields.WellKeyed)
    (h : fieldProblems catalog effective owner field = []) :
    ∃ linked, linkField catalog effective owner declaredBy field = some linked ∧
      IsLinked catalog effective field linked := by
  rw [fieldProblems, List.append_eq_nil_iff, Option.toList_eq_nil_iff, problemOf_eq_none_iff] at h
  obtain ⟨harguments, type, htype⟩ := h
  rw [linkField, htype]
  exact ⟨_, rfl, rfl, (signature_eq_ok_iff.mp htype).1.symm,
    values_argumentTable_typed hkeyed harguments⟩

/-- A field of a type is seen under its own name. -/
theorem mem_linkFields_iff {owner : String} {fields : FieldSet}
    (hfields : Table.get? effective owner = some fields) (hkeyed : fields.WellKeyed)
    {linked : ModelField} :
    linked ∈ linkFields catalog effective owner ↔ ∃ seen,
      Table.get? fields linked.name = some seen ∧
        linkField catalog effective owner seen.owner seen.declaration = some linked := by
  rw [linkFields, List.mem_filterMap, fieldsAt, hfields, Option.getD_some]
  apply exists_congr
  intro seen
  rw [and_congr_left_iff]
  intro hlinked
  have hname : linked.name = seen.declaration.name := by
    obtain ⟨_, -, rfl⟩ := Option.map_eq_some_iff.mp hlinked
    rfl
  rw [Table.get?_eq_some_iff hkeyed.nodup, Table.mem_values_iff, hname]
  constructor
  · rintro ⟨key, hmem⟩
    rw [hkeyed.named _ hmem]
    exact hmem
  · intro hmem
    exact ⟨_, hmem⟩

section Fields

variable {owner : String}
  (hkeyed : ∀ name fields, Table.get? effective name = some fields → fields.WellKeyed)
  (h : fieldsProblems catalog effective owner = [])

include hkeyed h

/-- A type with which nothing is wrong has a field for each that is seen from it. -/
theorem exists_linked {seen : SeenField} (hseen : seen ∈ fieldsAt effective owner) :
    ∃ linked ∈ linkFields catalog effective owner,
      IsLinked catalog effective seen.declaration linked := by
  rw [fieldsProblems, List.flatMap_eq_nil_iff] at h
  obtain ⟨linked, hlinked, his⟩ := exists_isLinked seen.owner hkeyed (h seen hseen)
  exact ⟨linked, List.mem_filterMap.mpr ⟨seen, hseen, hlinked⟩, his⟩

theorem exists_seen {linked : ModelField} (hlinked : linked ∈ linkFields catalog effective owner) :
    ∃ seen ∈ fieldsAt effective owner, IsLinked catalog effective seen.declaration linked := by
  rw [fieldsProblems, List.flatMap_eq_nil_iff] at h
  obtain ⟨seen, hseen, hl⟩ := List.mem_filterMap.mp hlinked
  -- Linking is a function, so the field it yields is the one described.
  obtain ⟨other, hother, his⟩ := exists_isLinked seen.owner hkeyed (h seen hseen)
  obtain rfl := Option.some.inj (hl.symm.trans hother)
  exact ⟨seen, hseen, his⟩

theorem linkFields_names :
    (linkFields catalog effective owner).map ModelField.name =
      (fieldsAt effective owner).map fun seen => seen.declaration.name := by
  rw [fieldsProblems, List.flatMap_eq_nil_iff] at h
  unfold linkFields
  generalize fieldsAt effective owner = fields at h
  induction fields with
  | nil => rfl
  | cons seen rest ih =>
    rw [List.forall_mem_cons] at h
    obtain ⟨linked, hlinked, his⟩ := exists_isLinked seen.owner hkeyed h.1
    rw [List.filterMap_cons, hlinked, List.map_cons, List.map_cons, his.name, ih h.2]

end Fields

end PlainLinking

end Schemata
