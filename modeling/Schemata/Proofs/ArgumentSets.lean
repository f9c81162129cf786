import Schemata.Proofs.AnalysedModel

namespace Schemata

namespace Linking

variable {catalog : Catalog} {effective : Table FieldSet}

def flattenedAfter {α : Type} (step : Resolve α) (findings : Findings) : List String :=
  Table.keys (step.run findings).2.argumentSets

/-- Whatever a step starts from, it keeps the sets that have been flattened, adds declared argument
sets only, and leaves none of the required ones out. -/
structure Flattens {α : Type} (catalog : Catalog) (step : Resolve α) (required : List String) :
    Prop where
  retains : ∀ findings, Table.keys findings.argumentSets ⊆ flattenedAfter step findings
  introduced : ∀ findings, ∀ name ∈ flattenedAfter step findings,
    name ∈ Table.keys findings.argumentSets ∨ catalog.kindOf name = some (.declared .argumentSet)
  reaches : ∀ findings, required ⊆ flattenedAfter step findings

namespace Flattens

variable {α β : Type}

theorem of_same {step : Resolve α}
    (h : ∀ findings, (step.run findings).2.argumentSets = findings.argumentSets) :
    Flattens catalog step [] := by
  have hsame (findings : Findings) :
      flattenedAfter step findings = Table.keys findings.argumentSets := by
    rw [flattenedAfter, h findings]
  refine ⟨fun findings => ?_, fun findings name hname => ?_, fun _ => List.nil_subset _⟩
  · rw [hsame findings]
    exact List.Subset.refl _
  · rw [hsame findings] at hname
    exact Or.inl hname

theorem pure (value : α) : Flattens catalog (Pure.pure value) [] :=
  of_same fun _ => rfl

theorem report (problem : Problem) : Flattens catalog (Resolve.report problem) [] :=
  of_same fun _ => rfl

theorem forget {step : Resolve α} {required : List String} (h : Flattens catalog step required) :
    Flattens catalog step [] :=
  ⟨h.retains, h.introduced, fun _ => List.nil_subset _⟩

theorem bind {step : Resolve α} {next : α → Resolve β} {required more : List String}
    (hstep : Flattens catalog step required) (hnext : ∀ value, Flattens catalog (next value) more) :
    Flattens catalog (step >>= next) (required ++ more) := by
  have hafter (findings : Findings) : flattenedAfter (step >>= next) findings =
      flattenedAfter (next (step.run findings).1) (step.run findings).2 := rfl
  refine ⟨fun findings => ?_, fun findings name hname => ?_, fun findings => ?_⟩
  · rw [hafter]
    exact List.Subset.trans (hstep.retains findings) ((hnext _).retains _)
  · rw [hafter] at hname
    rcases (hnext _).introduced _ name hname with hbefore | hdeclared
    · exact hstep.introduced findings name hbefore
    · exact Or.inr hdeclared
  · rw [hafter, List.append_subset]
    exact ⟨List.Subset.trans (hstep.reaches findings) ((hnext _).retains _), (hnext _).reaches _⟩

theorem map {step : Resolve α} {required : List String} (h : Flattens catalog step required)
    (f : α → β) : Flattens catalog (step >>= fun value => Pure.pure (f value)) required := by
  have hbind : Flattens catalog (step >>= fun value => Pure.pure (f value)) (required ++ []) :=
    h.bind fun value => pure (f value)
  rwa [List.append_nil] at hbind

theorem note (result : Except Problem α) : Flattens catalog (Resolve.note result) [] := by
  cases result with
  | ok value => exact pure (some value)
  | error problem => exact (report problem).map fun _ => none

theorem collect {step : α → Resolve (Option β)} {items : List α}
    (h : ∀ item, Flattens catalog (step item) []) :
    Flattens catalog (Resolve.collect step items) [] := by
  induction items with
  | nil => exact pure []
  | cons item rest ih => exact (h item).bind fun value => ih.map (value.toList ++ ·)

theorem forM {step : α → Resolve Unit} {items : List α}
    (h : ∀ item, Flattens catalog (step item) []) : Flattens catalog (items.forM step) [] := by
  induction items with
  | nil => exact pure ()
  | cons item rest ih => exact (h item).bind fun _ => ih

theorem foldlM {step : β → α → Resolve β} {required : α → List String} {items : List α}
    (h : ∀ state, ∀ item ∈ items, Flattens catalog (step state item) (required item)) (start : β) :
    Flattens catalog (items.foldlM step start) (items.flatMap required) := by
  induction items generalizing start with
  | nil => exact pure start
  | cons item rest ih =>
    rw [List.foldlM_cons, List.flatMap_cons]
    exact (h start item List.mem_cons_self).bind
      fun next => ih (fun state other ho => h state other (List.mem_cons_of_mem _ ho)) next

end Flattens

section Steps

variable (heffective : ∀ name, catalog.kindOf name = some (.declared .argumentSet) →
  name ∈ Table.keys effective)

include heffective

theorem argumentSet_flattens {name : String}
    (hname : catalog.kindOf name = some (.declared .argumentSet)) :
    Flattens catalog (argumentSet catalog effective name) [name] := by
  obtain ⟨fields, hfields⟩ := Table.exists_get?_of_mem_keys (heffective name hname)
  let linked := Resolve.collect
    (fun field : SeenField => Resolve.note (linkArgument catalog name field.declaration))
    (Table.values fields)
  have hlinked : Flattens catalog linked [] := .collect fun _ => .note _
  -- Either the set is there, or it is added once its fields have been linked.
  have hcases (findings : Findings) :
      (flattenedAfter (argumentSet catalog effective name) findings =
          Table.keys findings.argumentSets ∧ name ∈ Table.keys findings.argumentSets) ∨
        flattenedAfter (argumentSet catalog effective name) findings =
          Table.keys (Table.insert (linked.run findings).2.argumentSets name
            (linked.run findings).1) := by
    simp only [flattenedAfter, argumentSet, StateT.run_bind, StateT.run_get, pure_bind]
    cases hset : Table.get? findings.argumentSets name with
    | some arguments => exact Or.inl ⟨rfl, Table.mem_keys_of_get? hset⟩
    | none =>
      refine Or.inr ?_
      simp only [hfields, StateT.run_bind, StateT.run_modify, StateT.run_pure]
      rfl
  refine ⟨fun findings => ?_, fun findings other hother => ?_, fun findings => ?_⟩
  · rcases hcases findings with ⟨hsame, -⟩ | hadded
    · rw [hsame]
      exact List.Subset.refl _
    · intro other hother
      rw [hadded, Table.mem_keys_insert]
      exact Or.inr (hlinked.retains findings hother)
  · rcases hcases findings with ⟨hsame, -⟩ | hadded
    · rw [hsame] at hother
      exact Or.inl hother
    · rw [hadded, Table.mem_keys_insert] at hother
      rcases hother with rfl | hother
      · exact Or.inr hname
      · exact hlinked.introduced findings other hother
  · intro other hother
    obtain rfl := List.mem_singleton.mp hother
    rcases hcases findings with ⟨hsame, hm⟩ | hadded
    · rwa [hsame]
    · rw [hadded, Table.mem_keys_insert]
      exact Or.inl rfl

theorem sourceArguments_flattens (owner field : String) (source : ArgumentSource) :
    Flattens catalog (sourceArguments catalog effective owner field source) [] := by
  cases source with
  | single argument => exact (Flattens.note (linkArgument catalog owner argument)).map Option.toList
  | set reference =>
    simp only [sourceArguments]
    split
    next hname => exact (argumentSet_flattens heffective hname).forget
    next => exact (Flattens.report _).map fun _ => []

theorem arguments_flattens (owner : String) (field : FieldDeclaration) :
    Flattens catalog (arguments catalog effective owner field) [] :=
  (Flattens.foldlM (fun found source _ =>
    (sourceArguments_flattens heffective owner field.name source).map
      (insertArguments found)) []).forget.map Table.values

theorem linkField_flattens (owner declaredBy : String) (field : FieldDeclaration) :
    Flattens catalog (linkField catalog effective owner declaredBy field) [] :=
  (arguments_flattens heffective owner field).bind fun _ => (Flattens.note _).map _

theorem linkFields_flattens (owner : String) :
    Flattens catalog (linkFields catalog effective owner) [] :=
  .collect fun _ => linkField_flattens heffective _ _ _

omit heffective in
theorem checkResolver_flattens (owner : String) (kind : TypeKind) (field : FieldDeclaration) :
    Flattens catalog (checkResolver owner kind field) [] := by
  rw [checkResolver]
  split
  next => exact .report _
  next => exact .pure ()

theorem addType_flattens (relation : InterfaceRelation) (types : TypeSystem)
    (type : String × TypeEntry) (htype : catalog.kindOf type.1 = some (.declared type.2.kind)) :
    Flattens catalog (addType catalog effective relation types type)
      (if type.2.kind = .argumentSet then [type.1] else []) := by
  obtain ⟨name, entry⟩ := type
  simp only [addType] at htype ⊢
  cases hkind : entry.kind with
  | object => exact (linkFields_flattens heffective name).map _
  | interface => exact (linkFields_flattens heffective name).map _
  | input =>
    have hfields : Flattens catalog (linkInputFields catalog effective name) [] :=
      .collect fun field => (checkResolver_flattens name .input field.declaration).bind
        fun _ => .note _
    exact hfields.map _
  | argumentSet =>
    rw [hkind] at htype
    have hresolvers : Flattens catalog ((Table.values ((Table.get? effective name).getD [])).forM
        fun field => checkResolver name .argumentSet field.declaration) [] :=
      .forM fun field => checkResolver_flattens name .argumentSet field.declaration
    have hset : Flattens catalog (checkArgumentSet catalog effective name) [name] :=
      hresolvers.bind fun _ => (argumentSet_flattens heffective htype).map fun _ => ()
    exact hset.map _

omit heffective in
theorem checkMember_flattens (union member : String) :
    Flattens catalog (checkMember catalog union member) [] := by
  rw [checkMember]
  split
  next => exact .report _
  next => exact .pure ()
  next => exact .report _

/-- Linking flattens the declared argument sets and nothing else. -/
theorem mem_typeSystem_argumentSets (hnamed : catalog.WellNamed) (relation : InterfaceRelation)
    {name : String} :
    name ∈ Table.keys ((typeSystem catalog effective relation).run {}).1.argumentSets ↔
      catalog.kindOf name = some (.declared .argumentSet) := by
  have hkind (type : String × TypeEntry) (htype : type ∈ catalog.types) :
      catalog.kindOf type.1 = some (.declared type.2.kind) :=
    hnamed.kindOf_of_get? (Table.get?_of_mem hnamed.types_nodup htype)
  have htypes : Flattens catalog
      (catalog.types.foldlM (addType catalog effective relation) (ownTypes catalog))
      (catalog.types.flatMap fun type => if type.2.kind = .argumentSet then [type.1] else []) :=
    .foldlM (fun types type htype =>
      addType_flattens heffective relation types type (hkind type htype)) _
  have hunions : Flattens catalog (catalog.unions.forM fun union =>
      union.2.members.forM (checkMember catalog union.1)) [] :=
    .forM fun union => .forM fun member => checkMember_flattens union.1 member
  have hall := htypes.bind fun _ => hunions
  -- The sets are read off at the end, when all types and unions have been linked.
  have hrun : Table.keys ((typeSystem catalog effective relation).run {}).1.argumentSets =
      flattenedAfter
        (catalog.types.foldlM (addType catalog effective relation) (ownTypes catalog) >>= fun _ =>
          catalog.unions.forM fun union =>
            union.2.members.forM (checkMember catalog union.1)) {} := rfl
  rw [hrun]
  constructor
  · intro hname
    exact (hall.introduced {} name hname).resolve_left List.not_mem_nil
  · intro hname
    obtain ⟨entry, hentry, hkind⟩ := Catalog.kindOf_eq_declared hname
    refine hall.reaches {} (List.mem_append_left _ (List.mem_flatMap.mpr ?_))
    exact ⟨(name, entry), Table.mem_of_get? hentry, by simp [hkind]⟩

end Steps

end Linking

section Model

variable {options : AnalysisOptions} {registry : Registry} {classes : List TypeName}
  {model : SchemaModel} {catalog : Catalog} (h : analyze options registry classes = .ok model)
  (hcatalog : Catalog.ofRegistry registry = .ok catalog)

include h hcatalog

theorem analysed_of_catalog : Analysed options classes catalog model := by
  obtain ⟨other, hother, hanalysed⟩ := analysed_of_analyze h
  obtain rfl := Except.ok.inj (hcatalog.symm.trans hother)
  exact hanalysed

theorem mem_argumentSets_iff {name : String} :
    name ∈ Table.keys model.argumentSets ↔
      catalog.kindOf name = some (.declared .argumentSet) := by
  obtain ⟨groundwork, hground, hroots⟩ := Except.bind_eq_ok_iff.mp h
  obtain ⟨-, rfl⟩ := unlessProblems_eq_ok_iff.mp hroots
  have hanalysed := analysed_of_catalog h hcatalog
  have heffective (other : String) (hother : catalog.kindOf other = some (.declared .argumentSet)) :
      other ∈ Table.keys (catalog.finalFields options) := by
    obtain ⟨entry, hentry, hkind⟩ := Catalog.kindOf_eq_declared hother
    have hfields := hanalysed.finalFields_of_kind hentry (by rw [hkind]; exact TypeKind.noConfusion)
    rw [Catalog.get?_flattened, hentry, Option.map_some] at hfields
    exact Table.mem_keys_of_get? hfields
  rw [← Linking.mem_typeSystem_argumentSets heffective hanalysed.named
    (catalog.fulfilment options).relation, ← Groundwork.types_eq hground hcatalog]

/-- A model lists the declared argument sets, flattened. -/
theorem get?_argumentSets (name : String) :
    Table.get? model.argumentSets name =
      if catalog.kindOf name = some (.declared .argumentSet) then
        some (PlainLinking.setArguments catalog (catalog.finalFields options) name)
      else none := by
  have hvalues := (analysed_of_catalog h hcatalog).argumentSets
  split
  next hname =>
    rw [← mem_argumentSets_iff h hcatalog] at hname
    obtain ⟨arguments, harguments⟩ := Table.exists_get?_of_mem_keys hname
    exact harguments.trans (congrArg some (hvalues _ (Table.mem_of_get? harguments)))
  next hname =>
    rw [← mem_argumentSets_iff h hcatalog] at hname
    exact (Table.get?_eq_none_iff _ _).mpr hname

end Model

end Schemata
