import Schemata.Proofs.Analysis
import Schemata.Proofs.LinkedFields

namespace Schemata

open Requirement (argumentTypes)

namespace PlainLinking

variable {catalog : Catalog} {effective other flattened : Table FieldSet}

open Linking (argumentOf insertArguments)

theorem fieldsAt_congr (h : catalog.AgreeOnSets effective other) {name : String}
    (hset : catalog.kindOf name = some (.declared .argumentSet)) :
    fieldsAt effective name = fieldsAt other name := by
  rw [fieldsAt, fieldsAt, h name hset]

theorem argumentTable_congr (h : catalog.AgreeOnSets effective other) (owner : String)
    (field : FieldDeclaration) :
    argumentTable catalog effective owner field = argumentTable catalog other owner field := by
  have hsource : sourceArguments catalog effective owner = sourceArguments catalog other owner := by
    funext source
    cases source with
    | single argument => rfl
    | set reference =>
      simp only [sourceArguments]
      split
      next hset => rw [setArguments, setArguments, fieldsAt_congr h hset]
      next => rfl
  rw [argumentTable, argumentTable, hsource]

theorem argumentProblems_congr (h : catalog.AgreeOnSets effective other) (owner : String)
    (field : FieldDeclaration) :
    argumentProblems catalog effective owner field =
      argumentProblems catalog other owner field := by
  have hsource : sourceProblems catalog effective owner field.name =
      sourceProblems catalog other owner field.name := by
    funext source
    cases source with
    | single argument => rfl
    | set reference =>
      simp only [sourceProblems]
      split
      next hset => rw [setProblems, setProblems, fieldsAt_congr h hset]
      next => rfl
  rw [argumentProblems, argumentProblems, hsource]

/-- The arguments that a source declares. An argument set is expanded to the fields of its lineage,
those it inherits from its ancestors included. -/
inductive Contributes (catalog : Catalog) (flattened : Table FieldSet) :
    ArgumentSource → List FieldDeclaration → Prop
  | single (argument : FieldDeclaration) :
    Contributes catalog flattened (.single argument) [argument]
  | set {reference : TypeName} {chain : List String}
    (kind : catalog.kindOf (reference.resolve catalog.elements) = some (.declared .argumentSet))
    (lineage : catalog.lineage (reference.resolve catalog.elements) = .ok chain)
    (fields : Table.get? flattened (reference.resolve catalog.elements) =
      some (catalog.chainFields chain)) :
    Contributes catalog flattened (.set reference)
      ((Table.values (catalog.chainFields chain)).map SeenField.declaration)

/-- One argument for each name that is declared. -/
structure Merges (catalog : Catalog) (declared : List FieldDeclaration)
    (linked : List ModelArgument) : Prop where
  /-- A name stands where it is declared first. -/
  names : linked.map ModelArgument.name = (declared.map FieldDeclaration.name).eraseDups
  /-- An argument is as it is declared last. -/
  last : ∀ argument ∈ linked, ∃ final,
    declared.reverse.find? (·.name = argument.name) = some final ∧
      argument = argumentOf catalog final

theorem exists_contributes (hflattened : catalog.allFields = .ok flattened)
    (hn : (Table.keys catalog.types).Nodup) {owner field : String} {source : ArgumentSource}
    (h : sourceProblems catalog flattened owner field source = []) :
    ∃ declared, Contributes catalog flattened source declared ∧
      sourceArguments catalog flattened owner source = declared.map (argumentOf catalog) := by
  cases source with
  | single argument =>
    rw [sourceProblems, Option.toList_eq_nil_iff] at h
    refine ⟨[argument], .single argument, ?_⟩
    rw [sourceArguments, linkArgument_toOption_of_fine h]
    rfl
  | set reference =>
    simp only [sourceProblems] at h
    split at h
    next hset =>
      obtain ⟨entry, hentry, -⟩ := Catalog.kindOf_eq_declared hset
      obtain ⟨hlineages, rfl⟩ := (Catalog.allFields_eq_ok_iff hn).mp hflattened
      obtain ⟨chain, hchain⟩ := hlineages _ (Table.mem_keys_of_get? hentry)
      have hfields : Table.get? catalog.flattened (reference.resolve catalog.elements) =
          some (catalog.chainFields chain) := by
        rw [Catalog.get?_flattened, hentry, Option.map_some, hchain.ancestry_eq]
      refine ⟨_, .set hset (Catalog.lineage_eq_ok_iff.mpr hchain) hfields, ?_⟩
      simp only [sourceArguments]
      rw [if_pos hset, setArguments_of_fine h, fieldsAt, hfields, Option.getD_some, List.map_map]
      rfl
    next => cases h

theorem exists_forall₂_contributes (hflattened : catalog.allFields = .ok flattened)
    (hn : (Table.keys catalog.types).Nodup) {owner field : String} {sources : List ArgumentSource}
    (h : ∀ source ∈ sources, sourceProblems catalog flattened owner field source = []) :
    ∃ declared, List.Forall₂ (Contributes catalog flattened) sources declared ∧
      sources.flatMap (sourceArguments catalog flattened owner) =
        declared.flatten.map (argumentOf catalog) := by
  induction sources with
  | nil => exact ⟨[], .nil, rfl⟩
  | cons source rest ih =>
    rw [List.forall_mem_cons] at h
    obtain ⟨first, hfirst, harguments⟩ := exists_contributes hflattened hn h.1
    obtain ⟨others, hothers, hrest⟩ := ih h.2
    refine ⟨first :: others, .cons hfirst hothers, ?_⟩
    rw [List.flatMap_cons, List.flatten_cons, List.map_append, harguments, hrest]

/-- What is inserted last under a name is found there. -/
theorem get?_insertArguments (added : List ModelArgument) (name : String) :
    Table.get? (insertArguments [] added) name =
      added.reverse.find? (·.name = name) := by
  induction added using List.reverseRecOn with
  | nil => rfl
  | append_singleton added last ih =>
    rw [insertArguments, List.foldl_concat, Table.get?_insert, List.reverse_concat, List.find?_cons,
      ← ih]
    by_cases hname : last.name = name <;> simp [hname, insertArguments]

theorem merges_values {declared : List FieldDeclaration} {owner : String}
    {field : FieldDeclaration}
    (h : field.sources.flatMap (sourceArguments catalog effective owner) =
      declared.map (argumentOf catalog)) :
    Merges catalog declared (Table.values (argumentTable catalog effective owner field)) := by
  have htable : argumentTable catalog effective owner field =
      insertArguments [] (declared.map (argumentOf catalog)) := by
    rw [argumentTable_eq, h]
  constructor
  · rw [names_argumentTable, htable, keys_insertArguments, mergeNames_eq, List.map_map]
    simp only [Table.keys_nil, List.not_mem_nil, not_false_eq_true, decide_true, List.filter_true,
      List.nil_append]
    rfl
  · intro argument hargument
    obtain ⟨name, hentry⟩ := Table.mem_values_iff.mp hargument
    obtain rfl : argument.name = name := argumentTable_named _ hentry
    have hfound := Table.get?_of_mem nodup_keys_argumentTable hentry
    rw [htable, get?_insertArguments, ← List.map_reverse, List.find?_map] at hfound
    obtain ⟨final, hfinal, rfl⟩ := Option.map_eq_some_iff.mp hfound
    exact ⟨final, hfinal, rfl⟩

/-- Validation does not change what the sources of a field declare. -/
theorem exists_merges (hflattened : catalog.allFields = .ok flattened)
    (hn : (Table.keys catalog.types).Nodup) (hagree : catalog.AgreeOnSets effective flattened)
    {owner : String} {field : FieldDeclaration}
    (h : argumentProblems catalog effective owner field = []) :
    ∃ declared, List.Forall₂ (Contributes catalog flattened) field.sources declared ∧
      Merges catalog declared.flatten
        (Table.values (argumentTable catalog effective owner field)) := by
  rw [argumentProblems_congr hagree, argumentProblems, List.flatMap_eq_nil_iff] at h
  obtain ⟨declared, hdeclared, hsources⟩ := exists_forall₂_contributes hflattened hn h
  rw [argumentTable_congr hagree]
  exact ⟨declared, hdeclared, merges_values hsources⟩

end PlainLinking

namespace Linking

variable {catalog : Catalog} {effective flattened : Table FieldSet}

open PlainLinking (Contributes Merges typed)

inductive Task
  | report (problem : Problem)
  | signature (owner field : String) (type : TypeExpr) (position : Position)
  | argument (owner : String) (field : FieldDeclaration)
  | argumentSet (name : String)
  | arguments (owner : String) (field : FieldDeclaration)
  | field (owner declaredBy : String) (field : FieldDeclaration)
  | fields (owner : String)
  | inputFields (owner : String)
  | checkArgumentSet (name : String)
  | checkMember (union member : String)

/-- Only what a task leaves behind counts, not what it yields. -/
def Task.perform (catalog : Catalog) (effective : Table FieldSet) : Task → Resolve Unit
  | .report problem => Resolve.report problem
  | .signature owner name type position => do
    let _ ← Resolve.note (Linking.signature catalog owner name type position)
  | .argument owner declared => do
    let _ ← Resolve.note (linkArgument catalog owner declared)
  | .argumentSet name => do
    let _ ← Linking.argumentSet catalog effective name
  | .arguments owner declared => do
    let _ ← Linking.arguments catalog effective owner declared
  | .field owner declaredBy declared => do
    let _ ← linkField catalog effective owner declaredBy declared
  | .fields owner => do
    let _ ← linkFields catalog effective owner
  | .inputFields owner => do
    let _ ← linkInputFields catalog effective owner
  | .checkArgumentSet name => Linking.checkArgumentSet catalog effective name
  | .checkMember union member => Linking.checkMember catalog union member

def findingsAfter (catalog : Catalog) (effective : Table FieldSet) (tasks : List Task) : Findings :=
  ((tasks.forM (Task.perform catalog effective)).run {}).2

theorem Task.exists_outcome (task : Task) :
    ∃ found, Outcome catalog effective (task.perform catalog effective) () found := by
  cases task with
  | report problem => exact ⟨_, .report problem⟩
  | signature => exact ⟨_, (Outcome.note _).map fun _ => ()⟩
  | argument => exact ⟨_, (Outcome.note _).map fun _ => ()⟩
  | argumentSet name => exact ⟨_, (argumentSet_outcome name).map fun _ => ()⟩
  | arguments owner declared => exact ⟨_, (arguments_outcome owner declared).map fun _ => ()⟩
  | field owner declaredBy declared =>
    exact ⟨_, (linkField_outcome owner declaredBy declared).map fun _ => ()⟩
  | fields owner => exact ⟨_, (linkFields_outcome owner).map fun _ => ()⟩
  | inputFields owner => exact ⟨_, (linkInputFields_outcome owner).map fun _ => ()⟩
  | checkArgumentSet name => exact ⟨_, checkArgumentSet_outcome name⟩
  | checkMember union member => exact ⟨_, checkMember_outcome union member⟩

/-- Whatever linking has done, its argument sets are those it would compute anew. -/
theorem sound_findingsAfter (tasks : List Task) :
    Sound catalog effective (findingsAfter catalog effective tasks) := by
  have htask (task : Task) :
      ∃ found, Outcome catalog effective (task.perform catalog effective) () found :=
    task.exists_outcome
  choose found hfound using htask
  have htasks : Outcome catalog effective (tasks.forM (Task.perform catalog effective)) ()
      (tasks.flatMap found) :=
    .forM fun task _ => hfound task
  obtain ⟨sets, hrun, hsound⟩ := htasks {} sound_start
  rw [findingsAfter, hrun]
  exact hsound

/-- The arguments that validation compares are those of the model, whichever tasks came before. As
problems are never withdrawn, that there is none in the end means that no task had met one. -/
theorem arguments_agree (hn : (Table.keys catalog.types).Nodup)
    (hflattened : catalog.allFields = .ok flattened) (inherit : Bool)
    (heffective : effective = flattened ∨ effective = (catalog.validate flattened inherit).2)
    (tasks : List Task) (owner : String) (field : FieldDeclaration) {linked : List ModelArgument}
    {findings : Findings}
    (hrun : (arguments catalog effective owner field).run (findingsAfter catalog effective tasks) =
      (linked, findings))
    (hfine : findings.problems = []) :
    argumentTypes catalog flattened field = linked.map typed ∧
      argumentTypes catalog (catalog.validate flattened inherit).2 field = linked.map typed ∧
      (linked.map ModelArgument.name).Nodup ∧
      ∃ declared, List.Forall₂ (Contributes catalog flattened) field.sources declared ∧
        Merges catalog declared.flatten linked := by
  have hvalidated : catalog.AgreeOnSets (catalog.validate flattened inherit).2 flattened :=
    .of_others (Fulfilment.agreeOnOthers_run _ _ _ hn)
  have hagree : catalog.AgreeOnSets effective flattened := by
    rcases heffective with rfl | rfl
    · exact fun _ _ => rfl
    · exact hvalidated
  obtain ⟨sets, hlinked, -⟩ := arguments_outcome owner field _ (sound_findingsAfter tasks)
  rw [hrun, PlainLinking.argumentTable_congr hagree,
    PlainLinking.argumentProblems_congr hagree] at hlinked
  obtain ⟨rfl, rfl⟩ := Prod.mk.inj hlinked
  have hproblems : PlainLinking.argumentProblems catalog flattened owner field = [] :=
    (noteAll_eq_nil_iff.mp hfine).2
  have hkeyed : ∀ name fields, Table.get? flattened name = some fields → fields.WellKeyed := by
    obtain ⟨-, rfl⟩ := (Catalog.allFields_eq_ok_iff hn).mp hflattened
    exact fun _ _ => Catalog.wellKeyed_of_flattened
  have htyped := PlainLinking.values_argumentTable_typed hkeyed hproblems
  refine ⟨htyped.symm, ?_, ?_,
    PlainLinking.exists_merges hflattened hn (fun _ _ => rfl) hproblems⟩
  · rw [Requirement.argumentTypes_congr hvalidated, htyped]
  · rw [PlainLinking.names_argumentTable]
    exact PlainLinking.nodup_keys_argumentTable

end Linking

/-- How many works are listed is said twice: by the field itself, and by a set that inherits it. -/
def FieldDeclaration.works : FieldDeclaration :=
  let text : TypeExpr := .named (.literal "String")
  let first : FieldDeclaration := .new "first" (.named (.literal "Int"))
  (((FieldDeclaration.new "works" (.list text)).addSource (.single first)).addSource
    (.set (.literal "Paging"))).addSource (.single (.new "room" text))

def Registry.gallery : Registry :=
  { types :=
      [{ TypeDeclaration.new .argumentSet "Limits" with
          fields := [{ FieldDeclaration.new "first" (.nonNull (.named (.literal "Int"))) with
            description := some "at most" }] },
        { TypeDeclaration.new .argumentSet "Paging" with
          parent := some (.literal "Limits")
          fields := [.new "after" (.named (.literal "ID"))] },
        { TypeDeclaration.new .interface "Exhibition" with
          fields := [.works] },
        { TypeDeclaration.new .object "Gallery" with
          interfaces := [.literal "Exhibition"] }] }

/-- The set has been flattened for the interface when the field is linked for the gallery. -/
theorem Linking.arguments_agree_gallery :
    ∃ catalog flattened linked findings, Catalog.ofRegistry Registry.gallery = .ok catalog ∧
      (Table.keys catalog.types).Nodup ∧ catalog.allFields = .ok flattened ∧
      (Table.get? flattened "Gallery").map Table.keys = some [] ∧
      (Table.get? (catalog.validate flattened true).2 "Gallery").map Table.keys =
        some ["works"] ∧
      Table.keys (findingsAfter catalog (catalog.validate flattened true).2
        [.fields "Exhibition"]).argumentSets = ["Paging"] ∧
      (arguments catalog (catalog.validate flattened true).2 "Gallery" .works).run
        (findingsAfter catalog (catalog.validate flattened true).2 [.fields "Exhibition"]) =
          (linked, findings) ∧
      findings.problems = [] ∧
      linked = [⟨"first", .nonNull (.named "Int"), some "at most", none⟩,
        ⟨"after", .named "ID", none, none⟩, ⟨"room", .named "String", none, none⟩] ∧
      argumentTypes catalog flattened .works =
        [("first", .nonNull (.named "Int")), ("after", .named "ID"), ("room", .named "String")] ∧
      ∃ declared,
        List.Forall₂ (PlainLinking.Contributes catalog flattened)
            FieldDeclaration.works.sources declared ∧
          PlainLinking.Merges catalog declared.flatten linked := by
  have hrun : (Catalog.ofRegistry Registry.gallery).toOption.any (fun catalog =>
      catalog.allFields.toOption.any fun flattened =>
        let validated := (catalog.validate flattened true).2
        let before := findingsAfter catalog validated [.fields "Exhibition"]
        let answer := (arguments catalog validated "Gallery" .works).run before
        decide ((Table.get? flattened "Gallery").map Table.keys = some [] ∧
          (Table.get? validated "Gallery").map Table.keys = some ["works"] ∧
          Table.keys before.argumentSets = ["Paging"] ∧ answer.2.problems = [] ∧
          answer.1 = [⟨"first", .nonNull (.named "Int"), some "at most", none⟩,
            ⟨"after", .named "ID", none, none⟩, ⟨"room", .named "String", none, none⟩])) = true := by
    decide +kernel
  obtain ⟨catalog, hcatalog, hrun⟩ := exists_ok_of_any hrun
  obtain ⟨flattened, hflattened, hrun⟩ := exists_ok_of_any hrun
  obtain ⟨hown, hsupplied, hcached, hfine, hlinked⟩ := of_decide_eq_true hrun
  generalize hanswer : (arguments catalog (catalog.validate flattened true).2 "Gallery" .works).run
    (findingsAfter catalog (catalog.validate flattened true).2 [.fields "Exhibition"]) = answer
    at hfine hlinked
  obtain ⟨linked, findings⟩ := answer
  obtain rfl : linked = _ := hlinked
  have hn := (Catalog.ofRegistry_wellNamed hcatalog).types_nodup
  obtain ⟨htypes, -, -, hdeclared⟩ := arguments_agree hn hflattened true (Or.inr rfl)
    [.fields "Exhibition"] "Gallery" .works hanswer hfine
  exact ⟨catalog, flattened, _, findings, hcatalog, hn, hflattened, hown, hsupplied, hcached,
    hanswer, hfine, rfl, htypes, hdeclared⟩

end Schemata
