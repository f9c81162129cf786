import Schemata.Interface.Fulfilment
import Schemata.Proofs.Relation
import Schemata.Proofs.Requirement

namespace Schemata

namespace Fulfilment

open Requirement

variable {catalog : Catalog} {effective : Table FieldSet} {inherit : Bool}

def suppliedTo (catalog : Catalog) (effective : Table FieldSet) (inherit : Bool)
    (interfaces : List String) (own : FieldSet) : FieldSet :=
  if inherit then suppliedFields catalog effective interfaces own else []

def objectProblems (catalog : Catalog) (effective : Table FieldSet) (inherit : Bool)
    (object : String) : List Problem :=
  match catalog.interfacesOf object with
  | .error found => found
  | .ok interfaces =>
    match Table.get? effective object with
    | none => []
    | some own =>
      violations catalog effective object interfaces own
        (suppliedTo catalog effective inherit interfaces own)

def recorded? (catalog : Catalog) (effective : Table FieldSet) (object : String) :
    Option (List String) :=
  match catalog.interfacesOf object with
  | .error _ => none
  | .ok interfaces => (Table.get? effective object).map fun _ => interfaces

/-- The fields an object is left with: completed if nothing is wrong with it. -/
def settledFields (catalog : Catalog) (effective : Table FieldSet) (inherit : Bool)
    (object : String) (own : FieldSet) : FieldSet :=
  match catalog.interfacesOf object with
  | .error _ => own
  | .ok interfaces =>
    if objectProblems catalog effective inherit object = [] then
      completed own (suppliedTo catalog effective inherit interfaces own)
    else own

/-- The interfaces of an object without a problem are known, and its fields fulfil them. -/
theorem objectProblems_eq_nil_iff {object : String} :
    objectProblems catalog effective inherit object = [] ↔
      ∃ interfaces, catalog.interfacesOf object = .ok interfaces ∧
        ∀ own, Table.get? effective object = some own →
          violations catalog effective object interfaces own
            (suppliedTo catalog effective inherit interfaces own) = [] := by
  rw [objectProblems]
  cases hi : catalog.interfacesOf object with
  | error found => simp [Catalog.ne_nil_of_interfacesOf_error hi]
  | ok interfaces => cases Table.get? effective object <;> simp

theorem settledFields_of_fine {object : String}
    (hfine : objectProblems catalog effective inherit object = []) {interfaces : List String}
    (hi : catalog.interfacesOf object = .ok interfaces) (own : FieldSet) :
    settledFields catalog effective inherit object own =
      completed own (suppliedTo catalog effective inherit interfaces own) := by
  rw [settledFields, hi]
  exact if_pos hfine

theorem suppliedTo_wellKeyed
    (h : ∀ name fields, Table.get? effective name = some fields → fields.WellKeyed)
    (interfaces : List String) (own : FieldSet) :
    (suppliedTo catalog effective inherit interfaces own).WellKeyed := by
  rw [suppliedTo]
  split
  next => exact suppliedFields_wellKeyed (fun interface _ => h interface) own
  next => exact .nil

theorem settledFields_wellKeyed
    (h : ∀ name fields, Table.get? effective name = some fields → fields.WellKeyed)
    (object : String) {own : FieldSet} (hown : own.WellKeyed) :
    (settledFields catalog effective inherit object own).WellKeyed := by
  rw [settledFields]
  split
  next => exact hown
  next =>
    split
    next => exact completed_wellKeyed hown (suppliedTo_wellKeyed h _ _)
    next => exact hown

/-- Whatever a check of the object reads is the same in both maps. -/
structure ReadsAlike (catalog : Catalog) (effective other : Table FieldSet) (object : String) :
    Prop where
  own : Table.get? effective object = Table.get? other object
  others : catalog.AgreeOnOthers effective other

theorem ReadsAlike.refl (effective : Table FieldSet) (object : String) :
    ReadsAlike catalog effective effective object :=
  ⟨rfl, fun _ _ _ _ => rfl⟩

section ReadsAlike

variable {other : Table FieldSet} {object : String}

theorem suppliedTo_congr (h : ReadsAlike catalog effective other object)
    {interfaces : List String} (hi : catalog.interfacesOf object = .ok interfaces)
    (own : FieldSet) :
    suppliedTo catalog effective inherit interfaces own =
      suppliedTo catalog other inherit interfaces own := by
  rw [suppliedTo, suppliedTo, suppliedFields_of_others h.others hi]

theorem objectProblems_congr (h : ReadsAlike catalog effective other object) :
    objectProblems catalog effective inherit object =
      objectProblems catalog other inherit object := by
  rw [objectProblems, objectProblems, h.own]
  cases hi : catalog.interfacesOf object with
  | error found => rfl
  | ok interfaces =>
    cases Table.get? other object with
    | none => rfl
    | some own =>
      dsimp only
      rw [suppliedTo_congr h hi, violations_of_others h.others hi]

/-- All that a check of one object can do, if it reads what `effective` has. -/
theorem checkObject_cases {progress : Progress}
    (h : ReadsAlike catalog progress.effective effective object) (inherit : Bool) :
    (∃ found, catalog.interfacesOf object = .error found ∧
      checkObject catalog inherit progress object =
        { progress with problems := noteAll progress.problems found }) ∨
    (∃ interfaces, catalog.interfacesOf object = .ok interfaces ∧
      Table.get? effective object = none ∧
      checkObject catalog inherit progress object = progress) ∨
    ∃ interfaces own, catalog.interfacesOf object = .ok interfaces ∧
      Table.get? effective object = some own ∧
      checkObject catalog inherit progress object =
        { relation := recordObject progress.relation object interfaces
          effective :=
            if objectProblems catalog effective inherit object = [] then
              Table.insert progress.effective object
                (completed own (suppliedTo catalog effective inherit interfaces own))
            else progress.effective
          problems := progress.problems ++ objectProblems catalog effective inherit object } := by
  rw [← h.own, ← objectProblems_congr h]
  cases hi : catalog.interfacesOf object with
  | error found =>
    refine Or.inl ⟨found, rfl, ?_⟩
    rw [checkObject, hi, noteAll]
  | ok interfaces =>
    cases ho : Table.get? progress.effective object with
    | none =>
      refine Or.inr (Or.inl ⟨interfaces, rfl, rfl, ?_⟩)
      simp only [checkObject, hi, ho]
    | some own =>
      refine Or.inr (Or.inr ⟨interfaces, own, rfl, rfl, ?_⟩)
      rw [← suppliedTo_congr h hi]
      simp only [checkObject, objectProblems, hi, ho, suppliedTo, List.isEmpty_iff]

end ReadsAlike

/-- A check rewrites the set of its object only. -/
theorem get?_checkObject_of_ne (progress : Progress) {object name : String} (h : name ≠ object) :
    Table.get? (checkObject catalog inherit progress object).effective name =
      Table.get? progress.effective name := by
  rcases checkObject_cases (.refl _ object) inherit with
    ⟨_, _, he⟩ | ⟨_, _, _, he⟩ | ⟨_, own, _, _, he⟩
  · rw [he]
  · rw [he]
  · rw [he]
    dsimp only
    split
    next => rw [Table.get?_insert, if_neg h.symm]
    next => rfl

/-- The sets of types that are not visited stay as they were at first. -/
theorem get?_objects_of_notMem (start : Progress) {objects : List String} {name : String}
    (h : name ∉ objects) :
    Table.get? (objects.foldl (checkObject catalog inherit) start).effective name =
      Table.get? start.effective name := by
  induction objects using List.reverseRecOn with
  | nil => rfl
  | append_singleton objects object ih =>
    rw [List.mem_append, List.mem_singleton, not_or] at h
    rw [List.foldl_concat, get?_checkObject_of_ne _ h.2, ih h.1]

/-- Each type that is visited is an object and is visited once. -/
structure Visits (catalog : Catalog) (objects : List String) : Prop where
  once : objects.Nodup
  objects : ∀ name ∈ objects, ∀ entry, catalog.get? name = some entry → entry.kind = .object

theorem visits_typesOfKind (hn : (Table.keys catalog.types).Nodup) :
    Visits catalog (Table.keys (catalog.typesOfKind .object)) := by
  refine ⟨Catalog.nodup_keys_typesOfKind hn .object, fun name hname entry hentry => ?_⟩
  obtain ⟨found, hfound, hkind⟩ := (Catalog.mem_keys_typesOfKind hn).mp hname
  obtain rfl := Option.some.inj (hentry.symm.trans hfound)
  exact hkind

/-- An object is checked against the sets as they were at first: its own, as it comes once, and
those of other types, as only objects come. -/
theorem readsAlike_of_visits (start : Progress) {before : List String} {object : String}
    (h : Visits catalog (before ++ [object])) :
    ReadsAlike catalog (before.foldl (checkObject catalog inherit) start).effective
      start.effective object := by
  constructor
  · apply get?_objects_of_notMem
    exact fun hm => (List.nodup_append.mp h.once).2.2 object hm object List.mem_cons_self rfl
  · intro name entry hentry hkind
    apply get?_objects_of_notMem
    exact fun hm => hkind (h.objects name (List.mem_append_left _ hm) entry hentry)

/-- An object is entered under each of its interfaces once. -/
theorem recordObject_implementers {relation : InterfaceRelation}
    (hkeys : (Table.keys relation.implementers).Nodup) (object : String) {interfaces : List String}
    (hi : interfaces.Nodup) :
    (recordObject relation object interfaces).implementers =
      relation.implementers.map fun entry =>
        (entry.1, if entry.1 ∈ interfaces then entry.2 ++ [object] else entry.2) := by
  unfold recordObject
  dsimp only
  generalize relation.implementers = table at hkeys ⊢
  induction interfaces generalizing table with
  | nil => simp
  | cons interface rest ih =>
    rw [List.nodup_cons] at hi
    rw [List.foldl_cons, ih hi.2 _ (by rwa [Table.keys_modify]), Table.modify_eq_map hkeys,
      List.map_map]
    apply List.map_congr_left
    intro entry _
    -- The interfaces are distinct, so no later one enters the object here again.
    by_cases he : entry.1 = interface
    · simp [he, hi.1]
    · simp [he]

section Objects

variable {start : Progress} {objects : List String} (h : Visits catalog objects)

include h

/-- What holds at first and is kept by each check, which reads the sets as they were at first. -/
theorem objects_induction {P : List String → Progress → Prop} (first : P [] start)
    (next : ∀ before object progress, before ++ [object] <+: objects → P before progress →
      ReadsAlike catalog progress.effective start.effective object →
      P (before ++ [object]) (checkObject catalog inherit progress object)) :
    P objects (objects.foldl (checkObject catalog inherit) start) := by
  induction objects using List.reverseRecOn with
  | nil => exact first
  | append_singleton before object ih =>
    have hbefore : Visits catalog before :=
      ⟨(List.nodup_append.mp h.once).1,
        fun name hname => h.objects name (List.mem_append_left _ hname)⟩
    rw [List.foldl_concat]
    refine next before object _ (List.prefix_refl _) (ih hbefore ?_) (readsAlike_of_visits start h)
    intro front other progress hpart
    exact next front other progress (hpart.trans (List.prefix_append before [object]))

/-- The problems of a run are those of its objects. -/
theorem mem_objects_problems {problem : Problem} :
    problem ∈ (objects.foldl (checkObject catalog inherit) start).problems ↔
      problem ∈ start.problems ∨
        ∃ object ∈ objects, problem ∈ objectProblems catalog start.effective inherit object := by
  refine objects_induction h (P := fun objects progress => problem ∈ progress.problems ↔
    problem ∈ start.problems ∨
      ∃ object ∈ objects, problem ∈ objectProblems catalog start.effective inherit object)
    (by simp) fun before object progress _ ih hreads => ?_
  simp only [List.mem_append, List.mem_singleton, or_and_right, exists_or, exists_eq_left,
    ← or_assoc, ← ih]
  rcases checkObject_cases hreads inherit with
    ⟨found, hi, he⟩ | ⟨interfaces, hi, ho, he⟩ | ⟨interfaces, own, hi, ho, he⟩
  · rw [he, objectProblems, hi]
    exact mem_noteAll
  · simp [he, objectProblems, hi, ho]
  · rw [he]
    exact List.mem_append

theorem objects_problems_eq_nil_iff :
    (objects.foldl (checkObject catalog inherit) start).problems = [] ↔
      start.problems = [] ∧
        ∀ object ∈ objects, objectProblems catalog start.effective inherit object = [] := by
  simp only [List.eq_nil_iff_forall_not_mem, mem_objects_problems h, not_or, not_exists, not_and,
    forall_and]
  exact and_congr_right fun _ => ⟨fun h object hobject problem => h problem object hobject,
    fun h problem object hobject => h object hobject problem⟩

/-- An object that is checked has a field set already. -/
theorem keys_objects_effective :
    Table.keys (objects.foldl (checkObject catalog inherit) start).effective =
      Table.keys start.effective := by
  refine objects_induction h (P := fun _ progress =>
    Table.keys progress.effective = Table.keys start.effective) rfl
    fun before object progress _ ih hreads => ?_
  rcases checkObject_cases hreads inherit with
    ⟨found, hi, he⟩ | ⟨interfaces, hi, ho, he⟩ | ⟨interfaces, own, hi, ho, he⟩
  · rw [he, ih]
  · rw [he, ih]
  · rw [he, ← ih]
    dsimp only
    split
    next =>
      have hlisted : object ∈ Table.keys progress.effective := ih ▸ Table.mem_keys_of_get? ho
      rw [Table.keys_insert, if_pos hlisted]
    next => rfl

/-- What each check leaves of the sets. -/
theorem get?_objects_effective (name : String) :
    Table.get? (objects.foldl (checkObject catalog inherit) start).effective name =
      (Table.get? start.effective name).map fun own =>
        if name ∈ objects then settledFields catalog start.effective inherit name own else own := by
  refine objects_induction h (P := fun objects progress =>
    Table.get? progress.effective name = (Table.get? start.effective name).map fun own =>
      if name ∈ objects then settledFields catalog start.effective inherit name own else own)
    (by simp) fun before object progress _ ih hreads => ?_
  by_cases hn : name = object
  · subst hn
    rcases checkObject_cases hreads inherit with
      ⟨found, hi, he⟩ | ⟨interfaces, hi, ho, he⟩ | ⟨interfaces, own, hi, ho, he⟩
    · simp [he, ih, settledFields, hi]
    · simp [he, ih, ho]
    · by_cases hp : objectProblems catalog start.effective inherit name = []
      · simp [he, hp, Table.get?_insert, ho, settledFields, hi]
      · simp [he, hp, ih, ho, settledFields, hi]
  · rw [get?_checkObject_of_ne _ hn, ih]
    simp [hn]

theorem objects_ancestors :
    (objects.foldl (checkObject catalog inherit) start).relation.ancestors =
      start.relation.ancestors := by
  refine objects_induction h (P := fun _ progress =>
    progress.relation.ancestors = start.relation.ancestors) rfl
    fun before object progress _ ih hreads => ?_
  rcases checkObject_cases hreads inherit with
    ⟨_, _, he⟩ | ⟨_, _, _, he⟩ | ⟨_, _, _, _, he⟩ <;> rw [he] <;> exact ih

theorem objects_interfaces (hstart : start.relation.interfaces = []) :
    (objects.foldl (checkObject catalog inherit) start).relation.interfaces =
      objects.filterMap fun object =>
        (recorded? catalog start.effective object).map fun interfaces => (object, interfaces) := by
  refine objects_induction h (P := fun objects progress => progress.relation.interfaces =
    objects.filterMap fun object =>
      (recorded? catalog start.effective object).map fun interfaces => (object, interfaces))
    hstart fun before object progress hpart ih hreads => ?_
  -- Objects are checked once each, so this one is not recorded yet.
  have hnew : object ∉ Table.keys progress.relation.interfaces := by
    rw [ih]
    intro hm
    simp only [Table.keys, List.mem_map, List.mem_filterMap, Option.map_eq_some_iff] at hm
    obtain ⟨_, ⟨other, ho, _, _, rfl⟩, rfl⟩ := hm
    have honce := h.once.sublist hpart.sublist
    exact (List.nodup_append.mp honce).2.2 other ho other List.mem_cons_self rfl
  rw [List.filterMap_append, ← ih]
  rcases checkObject_cases hreads inherit with
    ⟨found, hi, he⟩ | ⟨interfaces, hi, ho, he⟩ | ⟨interfaces, own, hi, ho, he⟩
  · simp [he, recorded?, hi]
  · simp [he, recorded?, hi, ho]
  · simp [he, recorded?, hi, ho, recordObject, Table.insert_of_notMem hnew]

theorem objects_implementers (hn : (Table.keys start.relation.implementers).Nodup) :
    (objects.foldl (checkObject catalog inherit) start).relation.implementers =
      start.relation.implementers.map fun entry => (entry.1, entry.2 ++ objects.filter fun object =>
        decide (entry.1 ∈ (recorded? catalog start.effective object).getD [])) := by
  refine objects_induction h (P := fun objects progress => progress.relation.implementers =
    start.relation.implementers.map fun entry => (entry.1, entry.2 ++ objects.filter fun object =>
      decide (entry.1 ∈ (recorded? catalog start.effective object).getD [])))
    (by simp) fun before object progress _ ih hreads => ?_
  have hkeys : (Table.keys progress.relation.implementers).Nodup := by
    rw [ih, Table.keys_map]
    exact hn
  simp only [List.filter_append, ← List.append_assoc]
  rcases checkObject_cases hreads inherit with
    ⟨found, hi, he⟩ | ⟨interfaces, hi, ho, he⟩ | ⟨interfaces, own, hi, ho, he⟩
  · simp [he, ih, recorded?, hi]
  · simp [he, ih, recorded?, hi, ho]
  · rw [he]
    dsimp only
    rw [recordObject_implementers hkeys object (Catalog.interfacesOf_nodup hi), ih, List.map_map]
    apply List.map_congr_left
    intro entry _
    by_cases hm : entry.1 ∈ interfaces <;> simp [recorded?, hi, ho, hm]

end Objects

theorem interfaces_eq {names : List String} (hn : names.Nodup) :
    names.foldl (recordInterface catalog) ⟨{}, effective, []⟩ =
      { relation :=
          { implementers := names.map fun name => (name, [])
            ancestors := names.filterMap fun name =>
              (catalog.lineage name).toOption.map fun chain => (name, chain.drop 1) }
        effective := effective
        problems := names.filterMap fun name => problemOf (catalog.lineage name) } := by
  induction names using List.reverseRecOn with
  | nil => rfl
  | append_singleton names name ih =>
    rw [← List.concat_eq_append, List.nodup_concat] at hn
    have himplementers : name ∉ Table.keys (names.map fun name => (name, ([] : List String))) := by
      simpa [Table.keys] using hn.1
    have hancestors : name ∉ Table.keys (names.filterMap fun name =>
        (catalog.lineage name).toOption.map fun chain => (name, chain.drop 1)) := by
      simp only [Table.keys, List.mem_map, List.mem_filterMap, Option.map_eq_some_iff]
      rintro ⟨_, ⟨other, ho, _, _, rfl⟩, rfl⟩
      exact hn.1 ho
    rw [List.foldl_concat, ih hn.2, recordInterface]
    cases hl : catalog.lineage name with
    | error problem => simp [hl, Table.insert_of_notMem himplementers, Except.toOption]
    | ok chain =>
      have hok : (Except.ok chain : Except Problem (List String)).toOption = some chain := rfl
      simp only [Table.insert_of_notMem himplementers, Table.insert_of_notMem hancestors,
        List.map_append, List.map_cons, List.map_nil, List.filterMap_append, List.filterMap_cons,
        List.filterMap_nil, hl, hok, Option.map_some, problemOf_ok, List.append_nil]

section Run

variable (catalog effective inherit) (hn : (Table.keys catalog.types).Nodup)

include hn

theorem run_eq :
    run catalog effective inherit =
      (Table.keys (catalog.typesOfKind .object)).foldl (checkObject catalog inherit)
        { relation :=
            { implementers := (Table.keys (catalog.typesOfKind .interface)).map fun name => (name, [])
              ancestors := (Table.keys (catalog.typesOfKind .interface)).filterMap fun name =>
                (catalog.lineage name).toOption.map fun chain => (name, chain.drop 1) }
          effective := effective
          problems := (Table.keys (catalog.typesOfKind .interface)).filterMap fun name =>
            problemOf (catalog.lineage name) } := by
  rw [run, interfaces_eq (Catalog.nodup_keys_typesOfKind hn .interface)]

theorem mem_run_problems {problem : Problem} :
    problem ∈ (run catalog effective inherit).problems ↔
      (∃ interface ∈ Table.keys (catalog.typesOfKind .interface),
        problemOf (catalog.lineage interface) = some problem) ∨
      ∃ object ∈ Table.keys (catalog.typesOfKind .object),
        problem ∈ objectProblems catalog effective inherit object := by
  rw [run_eq _ _ _ hn, mem_objects_problems (visits_typesOfKind hn)]
  simp only [List.mem_filterMap]

theorem run_problems_eq_nil_iff :
    (run catalog effective inherit).problems = [] ↔
      (∀ interface ∈ Table.keys (catalog.typesOfKind .interface),
        ∃ chain, catalog.lineage interface = .ok chain) ∧
      ∀ object ∈ Table.keys (catalog.typesOfKind .object),
        objectProblems catalog effective inherit object = [] := by
  rw [run_eq _ _ _ hn, objects_problems_eq_nil_iff (visits_typesOfKind hn)]
  simp only [List.filterMap_eq_nil_iff, problemOf_eq_none_iff]

theorem keys_run_effective :
    Table.keys (run catalog effective inherit).effective = Table.keys effective := by
  rw [run_eq _ _ _ hn, keys_objects_effective (visits_typesOfKind hn)]

theorem get?_run_effective (name : String) :
    Table.get? (run catalog effective inherit).effective name =
      (Table.get? effective name).map fun own =>
        if name ∈ Table.keys (catalog.typesOfKind .object) then
          settledFields catalog effective inherit name own
        else own := by
  rw [run_eq _ _ _ hn, get?_objects_effective (visits_typesOfKind hn)]

/-- Validation changes the field sets of objects only. -/
theorem agreeOnOthers_run :
    catalog.AgreeOnOthers (run catalog effective inherit).effective effective := by
  intro name entry hentry hkind
  rw [run_eq _ _ _ hn, get?_objects_of_notMem]
  exact fun hm => hkind ((visits_typesOfKind hn).objects name hm entry hentry)

theorem run_ancestors :
    (run catalog effective inherit).relation.ancestors =
      (Table.keys (catalog.typesOfKind .interface)).filterMap fun name =>
        (catalog.lineage name).toOption.map fun chain => (name, chain.drop 1) := by
  rw [run_eq _ _ _ hn, objects_ancestors (visits_typesOfKind hn)]

theorem get?_ancestors (name : String) :
    Table.get? (run catalog effective inherit).relation.ancestors name =
      if name ∈ Table.keys (catalog.typesOfKind .interface) then
        (catalog.lineage name).toOption.map fun chain => chain.drop 1
      else none := by
  have hget := Table.get?_filterMap
    (fun name => (catalog.lineage name).toOption.map fun chain => chain.drop 1)
    (Table.keys (catalog.typesOfKind .interface)) name
  simp only [Option.map_map, Function.comp_def] at hget
  rw [run_ancestors _ _ _ hn, hget]

/-- The recorded ancestors of an interface are its lineage without itself. -/
theorem get?_run_ancestors {name : String}
    (hname : name ∈ Table.keys (catalog.typesOfKind .interface)) {chain : List String}
    (hchain : catalog.lineage name = .ok chain) :
    Table.get? (run catalog effective inherit).relation.ancestors name = some (chain.drop 1) := by
  rw [get?_ancestors _ _ _ hn, if_pos hname, hchain]
  rfl

theorem run_interfaces :
    (run catalog effective inherit).relation.interfaces =
      (Table.keys (catalog.typesOfKind .object)).filterMap fun object =>
        (recorded? catalog effective object).map fun interfaces => (object, interfaces) := by
  rw [run_eq _ _ _ hn, objects_interfaces (visits_typesOfKind hn) rfl]

theorem run_implementers :
    (run catalog effective inherit).relation.implementers =
      (Table.keys (catalog.typesOfKind .interface)).map fun name =>
        (name, (Table.keys (catalog.typesOfKind .object)).filter fun object =>
          decide (name ∈ (recorded? catalog effective object).getD [])) := by
  rw [run_eq _ _ _ hn, objects_implementers (visits_typesOfKind hn), List.map_map]
  · rfl
  · simpa [Table.keys, Function.comp_def] using Catalog.nodup_keys_typesOfKind hn .interface

end Run

end Fulfilment

end Schemata
