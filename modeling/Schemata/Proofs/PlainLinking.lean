import Mathlib.Data.List.Induction
import Schemata.Linking
import Schemata.Proofs.Problem
import Schemata.Proofs.Table

namespace Schemata

namespace PlainLinking

variable (catalog : Catalog) (effective : Table FieldSet)

open Linking (signature linkArgument insertArguments)

def fieldsAt (name : String) : List SeenField :=
  Table.values ((Table.get? effective name).getD [])

def setArguments (name : String) : List ModelArgument :=
  (fieldsAt effective name).filterMap fun field =>
    (linkArgument catalog name field.declaration).toOption

def setProblems (name : String) : List Problem :=
  (fieldsAt effective name).flatMap fun field =>
    (problemOf (linkArgument catalog name field.declaration)).toList

def sourceArguments (owner : String) : ArgumentSource → List ModelArgument
  | .single argument => (linkArgument catalog owner argument).toOption.toList
  | .set reference =>
    let name := reference.resolve catalog.elements
    if catalog.kindOf name = some (.declared .argumentSet) then setArguments catalog effective name
    else []

def sourceProblems (owner field : String) : ArgumentSource → List Problem
  | .single argument => (problemOf (linkArgument catalog owner argument)).toList
  | .set reference =>
    let name := reference.resolve catalog.elements
    if catalog.kindOf name = some (.declared .argumentSet) then setProblems catalog effective name
    else [.notAnArgumentSet owner field name]

def argumentTable (owner : String) (field : FieldDeclaration) : Table ModelArgument :=
  field.sources.foldl
    (fun found source => insertArguments found (sourceArguments catalog effective owner source)) []

def argumentProblems (owner : String) (field : FieldDeclaration) : List Problem :=
  field.sources.flatMap (sourceProblems catalog effective owner field.name)

def linkField (owner declaredBy : String) (field : FieldDeclaration) : Option ModelField :=
  (signature catalog owner field.name field.type .output).toOption.map fun type =>
    { name := field.name
      owner := declaredBy
      type := type
      description := field.description
      deprecation := field.deprecation
      arguments := Table.values (argumentTable catalog effective owner field)
      handler := field.handler }

def fieldProblems (owner : String) (field : FieldDeclaration) : List Problem :=
  argumentProblems catalog effective owner field ++
    (problemOf (signature catalog owner field.name field.type .output)).toList

def linkFields (owner : String) : List ModelField :=
  (fieldsAt effective owner).filterMap fun field =>
    linkField catalog effective owner field.owner field.declaration

def fieldsProblems (owner : String) : List Problem :=
  (fieldsAt effective owner).flatMap fun field =>
    fieldProblems catalog effective owner field.declaration

def resolverProblems (owner : String) (kind : TypeKind) (field : FieldDeclaration) : List Problem :=
  if field.resolver.isSome then [.misplacedResolver owner kind field.name] else []

def inputProblems (owner : String) : List Problem :=
  (fieldsAt effective owner).flatMap fun field =>
    resolverProblems owner .input field.declaration ++
      (problemOf (linkArgument catalog owner field.declaration)).toList

def argumentSetProblems (name : String) : List Problem :=
  (fieldsAt effective name).flatMap (fun field =>
    resolverProblems name .argumentSet field.declaration) ++ setProblems catalog effective name

variable (relation : InterfaceRelation)

def objectType (name : String) (entry : TypeEntry) : ObjectType :=
  { description := entry.description
    fields := linkFields catalog effective name
    interfaces := (Table.get? relation.interfaces name).getD []
    isTypeOf := entry.isTypeOf }

def interfaceType (name : String) (entry : TypeEntry) : InterfaceType :=
  { description := entry.description
    fields := linkFields catalog effective name
    interfaces := (Table.get? relation.ancestors name).getD []
    implementers := (Table.get? relation.implementers name).getD []
    resolveType := entry.resolveType }

def inputType (name : String) (entry : TypeEntry) : InputType :=
  { description := entry.description
    fields := (fieldsAt effective name).filterMap fun field =>
      (linkArgument catalog name field.declaration).toOption }

def addType (types : TypeSystem) (type : String × TypeEntry) : TypeSystem :=
  match type.2.kind with
  | .object =>
    { types with objects :=
        Table.insert types.objects type.1 (objectType catalog effective relation type.1 type.2) }
  | .interface =>
    { types with interfaces :=
        Table.insert types.interfaces type.1 (interfaceType catalog effective relation type.1 type.2) }
  | .input =>
    { types with inputs := Table.insert types.inputs type.1 (inputType catalog effective type.1 type.2) }
  | .argumentSet => types

def typeProblems (type : String × TypeEntry) : List Problem :=
  match type.2.kind with
  | .object | .interface => fieldsProblems catalog effective type.1
  | .input => inputProblems catalog effective type.1
  | .argumentSet => argumentSetProblems catalog effective type.1

def memberProblems (union member : String) : List Problem :=
  match catalog.kindOf member with
  | none => [.undeclaredType member (.unionMembers union)]
  | some (.declared .object) => []
  | some _ => [.invalidUnionMember union member]

def problems : List Problem :=
  catalog.types.flatMap (typeProblems catalog effective) ++
    catalog.unions.flatMap fun union => union.2.members.flatMap (memberProblems catalog union.1)

/-- The types of a catalog apart from its argument sets, those of each kind in catalog order. -/
def typeSystem : TypeSystem :=
  { Linking.ownTypes catalog with
    objects := (catalog.typesOfKind .object).map fun type =>
      (type.1, objectType catalog effective relation type.1 type.2)
    interfaces := (catalog.typesOfKind .interface).map fun type =>
      (type.1, interfaceType catalog effective relation type.1 type.2)
    inputs := (catalog.typesOfKind .input).map fun type =>
      (type.1, inputType catalog effective type.1 type.2) }

end PlainLinking

namespace Linking

variable {catalog : Catalog} {effective : Table FieldSet}

open PlainLinking (fieldsAt setArguments setProblems)

/-- A flattened set holds what flattening it anew would yield, and its problems have been noted. -/
def Sound (catalog : Catalog) (effective : Table FieldSet) (findings : Findings) : Prop :=
  ∀ entry ∈ findings.argumentSets, entry.2 = setArguments catalog effective entry.1 ∧
    setProblems catalog effective entry.1 ⊆ findings.problems

theorem sound_start : Sound catalog effective {} :=
  List.forall_mem_nil _

theorem Sound.noteAll {findings : Findings} (h : Sound catalog effective findings)
    (found : List Problem) :
    Sound catalog effective { findings with problems := noteAll findings.problems found } :=
  fun entry hentry =>
    ⟨(h entry hentry).1, fun _ hp => mem_noteAll.mpr (Or.inl ((h entry hentry).2 hp))⟩

/-- Whatever sound findings a step starts from, it yields the value, notes the problems and leaves
sound findings. -/
def Outcome {α : Type} (catalog : Catalog) (effective : Table FieldSet) (step : Resolve α)
    (value : α) (found : List Problem) : Prop :=
  ∀ findings, Sound catalog effective findings →
    ∃ sets, step.run findings = (value, ⟨sets, noteAll findings.problems found⟩) ∧
      Sound catalog effective ⟨sets, noteAll findings.problems found⟩

def foldProblems {α β : Type} (next : β → α → β) (found : β → α → List Problem) :
    β → List α → List Problem
  | _, [] => []
  | state, item :: rest => found state item ++ foldProblems next found (next state item) rest

theorem foldProblems_of_forget {α β : Type} (next : β → α → β) (found : α → List Problem)
    (state : β) (items : List α) :
    foldProblems next (fun _ item => found item) state items = items.flatMap found := by
  induction items generalizing state with
  | nil => rfl
  | cons item rest ih => rw [foldProblems, ih, List.flatMap_cons]

namespace Outcome

variable {α β : Type}

theorem pure (value : α) : Outcome catalog effective (Pure.pure value) value [] :=
  fun findings h => ⟨findings.argumentSets, rfl, h⟩

theorem bind {step : Resolve α} {next : α → Resolve β} {value : α} {result : β}
    {found more : List Problem} (hstep : Outcome catalog effective step value found)
    (hnext : Outcome catalog effective (next value) result more) :
    Outcome catalog effective (step >>= next) result (found ++ more) := by
  intro findings h
  obtain ⟨sets, hrun, hsound⟩ := hstep findings h
  obtain ⟨sets', hrun', hsound'⟩ := hnext _ hsound
  refine ⟨sets', ?_, ?_⟩
  · rw [StateT.run_bind, hrun, noteAll_append]
    exact hrun'
  · rw [noteAll_append]
    exact hsound'

/-- A last step that only computes changes nothing but the value. -/
theorem map {step : Resolve α} {value : α} {found : List Problem} (f : α → β)
    (hstep : Outcome catalog effective step value found) :
    Outcome catalog effective (step >>= fun value => Pure.pure (f value)) (f value) found := by
  have h : Outcome catalog effective (step >>= fun value => Pure.pure (f value)) (f value)
      (found ++ []) := hstep.bind (pure (f value))
  rwa [List.append_nil] at h

theorem report (problem : Problem) :
    Outcome catalog effective (Resolve.report problem) () [problem] :=
  fun findings h => ⟨findings.argumentSets, rfl, h.noteAll [problem]⟩

theorem note (result : Except Problem α) :
    Outcome catalog effective (Resolve.note result) result.toOption (problemOf result).toList := by
  cases result with
  | ok value => exact pure (some value)
  | error problem => exact (report problem).map fun _ => none

theorem collect {step : α → Resolve (Option β)} {value : α → Option β} {found : α → List Problem}
    {items : List α}
    (h : ∀ item ∈ items, Outcome catalog effective (step item) (value item) (found item)) :
    Outcome catalog effective (Resolve.collect step items) (items.filterMap value)
      (items.flatMap found) := by
  induction items with
  | nil => exact pure []
  | cons item rest ih =>
    rw [List.forall_mem_cons] at h
    have hvalues : (item :: rest).filterMap value = (value item).toList ++ rest.filterMap value := by
      rw [List.filterMap_cons]
      cases value item <;> rfl
    rw [hvalues, List.flatMap_cons]
    exact h.1.bind ((ih h.2).map ((value item).toList ++ ·))

theorem forM {step : α → Resolve Unit} {found : α → List Problem} {items : List α}
    (h : ∀ item ∈ items, Outcome catalog effective (step item) () (found item)) :
    Outcome catalog effective (items.forM step) () (items.flatMap found) := by
  induction items with
  | nil => exact pure ()
  | cons item rest ih =>
    rw [List.forall_mem_cons] at h
    exact h.1.bind (ih h.2)

/-- What a step met may depend on the state it was in. -/
theorem foldlM_state {step : β → α → Resolve β} {value : β → α → β}
    {found : β → α → List Problem} {items : List α}
    (h : ∀ state, ∀ item ∈ items,
      Outcome catalog effective (step state item) (value state item) (found state item))
    (start : β) :
    Outcome catalog effective (items.foldlM step start) (items.foldl value start)
      (foldProblems value found start items) := by
  induction items generalizing start with
  | nil => exact pure start
  | cons item rest ih =>
    rw [List.foldlM_cons]
    exact (h start item List.mem_cons_self).bind
      (ih (fun state other ho => h state other (List.mem_cons_of_mem _ ho)) _)

theorem foldlM {step : β → α → Resolve β} {value : β → α → β} {found : α → List Problem}
    {items : List α}
    (h : ∀ state, ∀ item ∈ items,
      Outcome catalog effective (step state item) (value state item) (found item))
    (start : β) :
    Outcome catalog effective (items.foldlM step start) (items.foldl value start)
      (items.flatMap found) := by
  rw [← foldProblems_of_forget value found start items]
  exact foldlM_state h start

end Outcome

theorem argumentSet_outcome (name : String) :
    Outcome catalog effective (argumentSet catalog effective name)
      (setArguments catalog effective name) (setProblems catalog effective name) := by
  intro findings h
  cases hset : Table.get? findings.argumentSets name with
  | some arguments =>
    obtain ⟨hset', hsub⟩ := h (name, arguments) (Table.mem_of_get? hset)
    dsimp only at hset' hsub
    subst hset'
    refine ⟨findings.argumentSets, ?_, h.noteAll _⟩
    -- Its problems were noted when it was flattened first; noting them again changes nothing.
    rw [noteAll_of_subset hsub]
    simp only [argumentSet, StateT.run_bind, StateT.run_get, pure_bind, hset, StateT.run_pure]
    rfl
  | none =>
    cases hfields : Table.get? effective name with
    -- Nothing is kept for a name without fields, and nothing has to be.
    | none =>
      have hat : fieldsAt effective name = [] := by rw [fieldsAt, hfields]; rfl
      refine ⟨findings.argumentSets, ?_, h.noteAll _⟩
      simp only [argumentSet, StateT.run_bind, StateT.run_get, pure_bind, hset, hfields,
        StateT.run_pure, setArguments, setProblems, hat]
      rfl
    | some fields =>
      have hat : fieldsAt effective name = Table.values fields := by rw [fieldsAt, hfields]; rfl
      have hcollect : Outcome catalog effective
          (Resolve.collect (fun field => Resolve.note (linkArgument catalog name field.declaration))
            (Table.values fields))
          (setArguments catalog effective name) (setProblems catalog effective name) := by
        rw [setArguments, setProblems, hat]
        exact .collect fun field _ => .note _
      obtain ⟨sets, hrun, hsound⟩ := hcollect findings h
      refine ⟨Table.insert sets name (setArguments catalog effective name), ?_, ?_⟩
      · simp only [argumentSet, StateT.run_bind, StateT.run_get, pure_bind, hset, hfields, hrun,
          StateT.run_modify, StateT.run_pure]
        rfl
      · exact Table.forall_mem_insert hsound ⟨rfl, fun _ hp => mem_noteAll.mpr (Or.inr hp)⟩

theorem sourceArguments_outcome (owner field : String) (source : ArgumentSource) :
    Outcome catalog effective (sourceArguments catalog effective owner field source)
      (PlainLinking.sourceArguments catalog effective owner source)
      (PlainLinking.sourceProblems catalog effective owner field source) := by
  cases source with
  | single argument => exact (Outcome.note (linkArgument catalog owner argument)).map Option.toList
  | set reference =>
    simp only [sourceArguments, PlainLinking.sourceArguments, PlainLinking.sourceProblems]
    split
    next => exact argumentSet_outcome _
    next => exact (Outcome.report _).map fun _ => []

theorem arguments_outcome (owner : String) (field : FieldDeclaration) :
    Outcome catalog effective (arguments catalog effective owner field)
      (Table.values (PlainLinking.argumentTable catalog effective owner field))
      (PlainLinking.argumentProblems catalog effective owner field) :=
  (Outcome.foldlM (fun found source _ => (sourceArguments_outcome owner field.name source).map
    (insertArguments found)) []).map Table.values

theorem linkField_outcome (owner declaredBy : String) (field : FieldDeclaration) :
    Outcome catalog effective (linkField catalog effective owner declaredBy field)
      (PlainLinking.linkField catalog effective owner declaredBy field)
      (PlainLinking.fieldProblems catalog effective owner field) :=
  (arguments_outcome owner field).bind ((Outcome.note _).map _)

theorem linkFields_outcome (owner : String) :
    Outcome catalog effective (linkFields catalog effective owner)
      (PlainLinking.linkFields catalog effective owner)
      (PlainLinking.fieldsProblems catalog effective owner) :=
  .collect fun _ _ => linkField_outcome _ _ _

theorem checkResolver_outcome (owner : String) (kind : TypeKind) (field : FieldDeclaration) :
    Outcome catalog effective (checkResolver owner kind field) ()
      (PlainLinking.resolverProblems owner kind field) := by
  rw [checkResolver, PlainLinking.resolverProblems]
  split
  next => exact .report _
  next => exact .pure ()

theorem linkInputFields_outcome (owner : String) :
    Outcome catalog effective (linkInputFields catalog effective owner)
      ((fieldsAt effective owner).filterMap fun field =>
        (linkArgument catalog owner field.declaration).toOption)
      (PlainLinking.inputProblems catalog effective owner) :=
  .collect fun field _ => (checkResolver_outcome owner .input field.declaration).bind (.note _)

theorem checkArgumentSet_outcome (name : String) :
    Outcome catalog effective (checkArgumentSet catalog effective name) ()
      (PlainLinking.argumentSetProblems catalog effective name) :=
  (Outcome.forM fun field _ => checkResolver_outcome name .argumentSet field.declaration).bind
    ((argumentSet_outcome name).map fun _ => ())

theorem addType_outcome (relation : InterfaceRelation) (types : TypeSystem)
    (type : String × TypeEntry) :
    Outcome catalog effective (addType catalog effective relation types type)
      (PlainLinking.addType catalog effective relation types type)
      (PlainLinking.typeProblems catalog effective type) := by
  obtain ⟨name, entry⟩ := type
  simp only [addType, PlainLinking.addType, PlainLinking.typeProblems]
  cases entry.kind with
  | object => exact (linkFields_outcome name).map _
  | interface => exact (linkFields_outcome name).map _
  | input => exact (linkInputFields_outcome name).map _
  | argumentSet => exact (checkArgumentSet_outcome name).map _

theorem checkMember_outcome (union member : String) :
    Outcome catalog effective (checkMember catalog union member) ()
      (PlainLinking.memberProblems catalog union member) := by
  rw [checkMember, PlainLinking.memberProblems]
  cases catalog.kindOf member with
  | none => exact .report _
  | some kind =>
    cases kind with
    | declared kind =>
      cases kind with
      | object => exact .pure ()
      | interface | input | argumentSet => exact .report _
    | scalar | enum | union => exact .report _

theorem foldl_addType {types : Table TypeEntry} (hn : (Table.keys types).Nodup)
    (relation : InterfaceRelation) (start : TypeSystem)
    (hobjects : start.objects = []) (hinterfaces : start.interfaces = []) (hinputs : start.inputs = []) :
    types.foldl (PlainLinking.addType catalog effective relation) start =
      { start with
        objects := (types.filter fun type => decide (type.2.kind = .object)).map fun type =>
          (type.1, PlainLinking.objectType catalog effective relation type.1 type.2)
        interfaces := (types.filter fun type => decide (type.2.kind = .interface)).map fun type =>
          (type.1, PlainLinking.interfaceType catalog effective relation type.1 type.2)
        inputs := (types.filter fun type => decide (type.2.kind = .input)).map fun type =>
          (type.1, PlainLinking.inputType catalog effective type.1 type.2) } := by
  induction types using List.reverseRecOn with
  | nil => simp [← hobjects, ← hinterfaces, ← hinputs]
  | append_singleton types type ih =>
    rw [Table.keys_append, List.nodup_append] at hn
    -- Names are distinct, so an insertion goes to the end of its table.
    have hnew {β : Type} (p : String × TypeEntry → Bool) (f : String × TypeEntry → β) :
        type.1 ∉ Table.keys ((types.filter p).map fun type => (type.1, f type)) := by
      rw [Table.keys_map]
      intro hm
      obtain ⟨other, ho, he⟩ := List.mem_map.mp hm
      exact hn.2.2 other.1 (Table.mem_keys_of_mem (List.mem_of_mem_filter ho)) type.1
        List.mem_cons_self he
    rw [List.foldl_concat, ih hn.1, PlainLinking.addType]
    cases hk : type.2.kind <;> simp [hk, List.filter_append, Table.insert_of_notMem (hnew _ _)]

/-- Linking a whole catalog, from a fresh start, type by type. -/
theorem typeSystem_run_foldl (catalog : Catalog) (effective : Table FieldSet)
    (relation : InterfaceRelation) :
    ∃ sets, (typeSystem catalog effective relation).run {} =
        ({ catalog.types.foldl (PlainLinking.addType catalog effective relation)
            (ownTypes catalog) with argumentSets := sets },
          ⟨sets, noteAll [] (PlainLinking.problems catalog effective)⟩) ∧
      Sound catalog effective ⟨sets, noteAll [] (PlainLinking.problems catalog effective)⟩ := by
  have htypes : Outcome catalog effective
      (catalog.types.foldlM (addType catalog effective relation) (ownTypes catalog))
      (catalog.types.foldl (PlainLinking.addType catalog effective relation) (ownTypes catalog))
      (catalog.types.flatMap (PlainLinking.typeProblems catalog effective)) :=
    .foldlM (fun types type _ => addType_outcome relation types type) _
  have hunions : Outcome catalog effective
      (catalog.unions.forM fun union => union.2.members.forM (checkMember catalog union.1)) ()
      (catalog.unions.flatMap fun union =>
        union.2.members.flatMap (PlainLinking.memberProblems catalog union.1)) :=
    .forM fun union _ => .forM fun member _ => checkMember_outcome union.1 member
  obtain ⟨sets, hrun, hsound⟩ := htypes {} sound_start
  -- The members of unions are checked with what the types have left.
  obtain ⟨sets', hrun', hsound'⟩ := hunions _ hsound
  rw [← noteAll_append] at hrun' hsound'
  refine ⟨sets', ?_, hsound'⟩
  rw [typeSystem, StateT.run_bind, hrun]
  change StateT.run ((catalog.unions.forM fun union =>
    union.2.members.forM (checkMember catalog union.1)) >>= _) _ = _
  rw [StateT.run_bind, hrun']
  rfl

/-- With distinct names the types of each kind stand in catalog order. -/
theorem typeSystem_run (hn : (Table.keys catalog.types).Nodup) (effective : Table FieldSet)
    (relation : InterfaceRelation) :
    ∃ sets, (typeSystem catalog effective relation).run {} =
        ({ PlainLinking.typeSystem catalog effective relation with argumentSets := sets },
          ⟨sets, noteAll [] (PlainLinking.problems catalog effective)⟩) ∧
      Sound catalog effective ⟨sets, noteAll [] (PlainLinking.problems catalog effective)⟩ := by
  have hfold : catalog.types.foldl (PlainLinking.addType catalog effective relation)
      (ownTypes catalog) = PlainLinking.typeSystem catalog effective relation :=
    foldl_addType hn relation (ownTypes catalog) rfl rfl rfl
  rw [← hfold]
  exact typeSystem_run_foldl catalog effective relation

end Linking

end Schemata
