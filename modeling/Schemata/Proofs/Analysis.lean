import Schemata.Proofs.Fulfilment
import Schemata.Proofs.Naming
import Schemata.Proofs.PlainRoots

namespace Schemata

def Catalog.fulfilment (catalog : Catalog) (options : AnalysisOptions) : Fulfilment.Progress :=
  Fulfilment.run catalog catalog.flattened options.inheritInterfaceFields

def Catalog.finalFields (catalog : Catalog) (options : AnalysisOptions) : Table FieldSet :=
  (catalog.fulfilment options).effective

/-- An analysis of a catalog that finds nothing wrong, and the model it makes. -/
structure Analysed (options : AnalysisOptions) (classes : List TypeName) (catalog : Catalog)
    (model : SchemaModel) : Prop where
  named : catalog.WellNamed
  lineages : ∀ name ∈ Table.keys catalog.types, ∃ chain, catalog.IsLineage name chain
  fulfilled : (catalog.fulfilment options).problems = []
  linked : PlainLinking.problems catalog (catalog.finalFields options) = []
  types : ∃ sets, Linking.Sound catalog (catalog.finalFields options) ⟨sets, []⟩ ∧
    model.toTypeSystem =
      { PlainLinking.typeSystem catalog (catalog.finalFields options)
          (catalog.fulfilment options).relation with argumentSets := sets }
  rooted : PlainRoots.problems options catalog (catalog.finalFields options) classes = []
  query : model.query = ⟨options.queryType,
    (PlainRoots.draft options catalog (catalog.finalFields options) classes).query⟩
  mutation : model.mutation =
    if (PlainRoots.draft options catalog (catalog.finalFields options) classes).mutation.isEmpty then
      none
    else some ⟨options.mutationType,
      (PlainRoots.draft options catalog (catalog.finalFields options) classes).mutation⟩

theorem Except.bind_eq_ok_iff {ε α β : Type} {first : Except ε α} {next : α → Except ε β}
    {result : β} :
    (first >>= next) = .ok result ↔ ∃ value, first = .ok value ∧ next value = .ok result := by
  cases first <;> simp [bind, Except.bind]

def Groundwork.rooted (groundwork : Groundwork) (options : AnalysisOptions) (draft : RootDraft) :
    SchemaModel :=
  { toTypeSystem := groundwork.types
    query := ⟨options.queryType, draft.query⟩
    mutation :=
      if draft.mutation.isEmpty then none else some ⟨options.mutationType, draft.mutation⟩ }

/-- What the stages before the roots have made sure of. -/
theorem Groundwork.exists_catalog {options : AnalysisOptions} {registry : Registry}
    {groundwork : Groundwork} (h : Groundwork.ofRegistry options registry = .ok groundwork) :
    ∃ catalog sets, Catalog.ofRegistry registry = .ok catalog ∧
      (∀ name ∈ Table.keys catalog.types, ∃ chain, catalog.IsLineage name chain) ∧
      (catalog.fulfilment options).problems = [] ∧
      PlainLinking.problems catalog (catalog.finalFields options) = [] ∧
      Linking.Sound catalog (catalog.finalFields options) ⟨sets, []⟩ ∧
      groundwork.catalog = catalog ∧ groundwork.effective = catalog.finalFields options ∧
      groundwork.types =
        { PlainLinking.typeSystem catalog (catalog.finalFields options)
            (catalog.fulfilment options).relation with argumentSets := sets } ∧
      groundwork.findings = ⟨sets, []⟩ := by
  obtain ⟨catalog, hcatalog, hground⟩ := Except.bind_eq_ok_iff.mp h
  obtain ⟨flattened, hflattened, hground⟩ := Except.bind_eq_ok_iff.mp hground
  obtain ⟨relation, hrelation, hground⟩ := Except.bind_eq_ok_iff.mp hground
  have hnamed := Catalog.ofRegistry_wellNamed hcatalog
  obtain ⟨hlineages, rfl⟩ := (Catalog.allFields_eq_ok_iff hnamed.types_nodup).mp hflattened
  obtain ⟨hfulfilled, rfl⟩ := unlessProblems_eq_ok_iff.mp hrelation
  obtain ⟨sets, hrun, hsound⟩ := Linking.typeSystem_run hnamed.types_nodup
    (catalog.finalFields options) (catalog.fulfilment options).relation
  -- The code takes both from the result of validation, where they have no names.
  unfold Catalog.finalFields Catalog.fulfilment at hrun
  simp only [hrun] at hground
  obtain ⟨hlinked, rfl⟩ := unlessProblems_eq_ok_iff.mp hground
  have hnone : PlainLinking.problems catalog (catalog.finalFields options) = [] :=
    (noteAll_eq_nil_iff.mp hlinked).2
  rw [hnone] at hsound
  exact ⟨catalog, sets, hcatalog, hlineages, hfulfilled, hnone, hsound, rfl, rfl, rfl,
    congrArg (Findings.mk sets) hlinked⟩

/-- The types are those that linking makes from a fresh start. -/
theorem Groundwork.types_eq {options : AnalysisOptions} {registry : Registry}
    {groundwork : Groundwork} (h : Groundwork.ofRegistry options registry = .ok groundwork)
    {catalog : Catalog} (hcatalog : Catalog.ofRegistry registry = .ok catalog) :
    groundwork.types = ((Linking.typeSystem catalog (catalog.finalFields options)
      (catalog.fulfilment options).relation).run {}).1 := by
  obtain ⟨other, hother, hground⟩ := Except.bind_eq_ok_iff.mp h
  obtain rfl := Except.ok.inj (hcatalog.symm.trans hother)
  obtain ⟨flattened, hflattened, hground⟩ := Except.bind_eq_ok_iff.mp hground
  obtain ⟨relation, hrelation, hground⟩ := Except.bind_eq_ok_iff.mp hground
  have hn := (Catalog.ofRegistry_wellNamed hcatalog).types_nodup
  obtain ⟨-, rfl⟩ := (Catalog.allFields_eq_ok_iff hn).mp hflattened
  obtain ⟨-, rfl⟩ := unlessProblems_eq_ok_iff.mp hrelation
  obtain ⟨-, rfl⟩ := unlessProblems_eq_ok_iff.mp hground
  rfl

theorem Groundwork.exists_of_catalog {options : AnalysisOptions} {registry : Registry}
    {catalog : Catalog} (hcatalog : Catalog.ofRegistry registry = .ok catalog)
    (hlineages : ∀ name ∈ Table.keys catalog.types, ∃ chain, catalog.IsLineage name chain)
    (hfulfilled : (catalog.fulfilment options).problems = [])
    (hlinked : PlainLinking.problems catalog (catalog.finalFields options) = []) :
    ∃ groundwork, Groundwork.ofRegistry options registry = .ok groundwork := by
  have hn := (Catalog.ofRegistry_wellNamed hcatalog).types_nodup
  have hflattened := (Catalog.allFields_eq_ok_iff hn).mpr ⟨hlineages, rfl⟩
  have hrelation : (catalog.validate catalog.flattened options.inheritInterfaceFields).1 =
      .ok (catalog.fulfilment options).relation := unlessProblems_eq_ok_iff.mpr ⟨hfulfilled, rfl⟩
  obtain ⟨sets, hrun, -⟩ := Linking.typeSystem_run hn (catalog.finalFields options)
    (catalog.fulfilment options).relation
  rw [hlinked] at hrun
  let groundwork : Groundwork :=
    { catalog := catalog
      effective := catalog.finalFields options
      types := { PlainLinking.typeSystem catalog (catalog.finalFields options)
        (catalog.fulfilment options).relation with argumentSets := sets }
      findings := ⟨sets, []⟩ }
  let linked := (Linking.typeSystem catalog (catalog.finalFields options)
    (catalog.fulfilment options).relation).run {}
  have hlast : unlessProblems linked.2.problems
      (⟨catalog, catalog.finalFields options, linked.1, linked.2⟩ : Groundwork) =
        .ok groundwork := by
    simp only [linked, hrun]
    exact unlessProblems_eq_ok_iff.mpr ⟨rfl, rfl⟩
  exact ⟨groundwork, Except.bind_eq_ok_iff.mpr ⟨catalog, hcatalog,
    Except.bind_eq_ok_iff.mpr ⟨_, hflattened, Except.bind_eq_ok_iff.mpr ⟨_, hrelation, hlast⟩⟩⟩⟩

/-- The roots go on with the findings of linking, of which there are none. -/
theorem Groundwork.withRoots_eq_ok_iff {options : AnalysisOptions} {registry : Registry}
    {groundwork : Groundwork} (h : Groundwork.ofRegistry options registry = .ok groundwork)
    {classes : List TypeName} {model : SchemaModel} :
    groundwork.withRoots options classes = .ok model ↔
      PlainRoots.problems options groundwork.catalog groundwork.effective classes = [] ∧
        model = groundwork.rooted options
          (PlainRoots.draft options groundwork.catalog groundwork.effective classes) := by
  obtain ⟨_, sets, -, -, -, -, hsound, rfl, heffective, -, hfindings⟩ := exists_catalog h
  rw [← heffective] at hsound
  obtain ⟨_, hbuild, -⟩ := Roots.build_outcome options classes _ hsound
  rw [withRoots, hfindings, hbuild, unlessProblems_eq_ok_iff, noteAll_eq_nil_iff,
    and_iff_right rfl]
  exact and_congr_right fun _ => eq_comm

theorem analyze_eq_ok_iff {options : AnalysisOptions} {registry : Registry}
    {classes : List TypeName} {model : SchemaModel} :
    analyze options registry classes = .ok model ↔
      ∃ groundwork, Groundwork.ofRegistry options registry = .ok groundwork ∧
        PlainRoots.problems options groundwork.catalog groundwork.effective classes = [] ∧
        model = groundwork.rooted options
          (PlainRoots.draft options groundwork.catalog groundwork.effective classes) := by
  rw [analyze, Except.bind_eq_ok_iff]
  exact exists_congr fun groundwork => and_congr_right fun h => Groundwork.withRoots_eq_ok_iff h

/-- An analysis succeeds only if no stage has found a problem. -/
theorem analysed_of_analyze {options : AnalysisOptions} {registry : Registry}
    {classes : List TypeName} {model : SchemaModel}
    (h : analyze options registry classes = .ok model) :
    ∃ catalog, Catalog.ofRegistry registry = .ok catalog ∧
      Analysed options classes catalog model := by
  obtain ⟨groundwork, hground, hrooted, rfl⟩ := analyze_eq_ok_iff.mp h
  obtain ⟨_, sets, hcatalog, hlineages, hfulfilled, hlinked, hsound, rfl, heffective, htypes, -⟩ :=
    Groundwork.exists_catalog hground
  refine ⟨groundwork.catalog, hcatalog, ?_⟩
  rw [heffective] at hrooted ⊢
  exact
    { named := Catalog.ofRegistry_wellNamed hcatalog
      lineages := hlineages
      fulfilled := hfulfilled
      linked := hlinked
      types := ⟨sets, hsound, htypes⟩
      rooted := hrooted
      query := rfl
      mutation := rfl }

/-- An analysis succeeds if no stage finds a problem. -/
theorem exists_analyze {options : AnalysisOptions} {registry : Registry} {classes : List TypeName}
    {catalog : Catalog} (hcatalog : Catalog.ofRegistry registry = .ok catalog)
    (hlineages : ∀ name ∈ Table.keys catalog.types, ∃ chain, catalog.IsLineage name chain)
    (hfulfilled : (catalog.fulfilment options).problems = [])
    (hlinked : PlainLinking.problems catalog (catalog.finalFields options) = [])
    (hrooted : PlainRoots.problems options catalog (catalog.finalFields options) classes = []) :
    ∃ model, analyze options registry classes = .ok model := by
  obtain ⟨groundwork, hground⟩ := Groundwork.exists_of_catalog hcatalog hlineages hfulfilled hlinked
  obtain ⟨other, _, hother, -, -, -, -, hsame, heffective, -, -⟩ :=
    Groundwork.exists_catalog hground
  obtain rfl := Except.ok.inj (hcatalog.symm.trans hother)
  exact ⟨_, analyze_eq_ok_iff.mpr ⟨groundwork, hground, by rw [hsame, heffective, hrooted], rfl⟩⟩

/-- A registry that passes every stage: cats get from their interface what dogs declare anew. -/
def Registry.kennel : Registry :=
  let text : TypeExpr := .named (.literal "String")
  let sound := (FieldDeclaration.new "sound" text).addSource (.set (.literal "Volume"))
  { types :=
      [{ TypeDeclaration.new .interface "Node" with
          fields := [.new "id" (.nonNull (.named (.literal "ID")))] },
        { TypeDeclaration.new .interface "Animal" with
          parent := some (.literal "Node")
          fields := [sound] },
        { TypeDeclaration.new .argumentSet "Volume" with
          fields := [.new "level" (.nonNull (.named (.literal "Int")))] },
        { TypeDeclaration.new .object "Dog" with
          interfaces := [.literal "Animal"]
          fields := [sound.addSource (.single (.new "tone" text))] },
        { TypeDeclaration.new .object "Cat" with
          interfaces := [.literal "Animal"]
          isTypeOf := some fun record => record.fields.isEmpty }]
    unions := [⟨"Pet", [.literal "Cat", .literal "Dog"], none, none⟩]
    resolvers := [(.literal "Store", ⟨.query, .new "pet" (.named (.literal "Pet"))⟩)] }

/-- The kennel with young ones, declared before the types that they extend by separate edges. -/
def Registry.nursery : Registry :=
  { kennel with
    types :=
      [TypeDeclaration.new .object "Puppy",
        { TypeDeclaration.new .object "Kitten" with
          fields := [.new "coat" (.named (.literal "Coat"))] }] ++ kennel.types
    fields := [(.literal "Puppy", .new "born" (.nonNull (.named (.literal "Date"))))]
    extensions := [(.literal "Puppy", .literal "Dog"), (.literal "Kitten", .literal "Cat")]
    scalars := [⟨"Date", some "without a time"⟩, ⟨"Weight", none⟩]
    enums := [⟨"Coat", ["LONG", "SHORT"], none⟩] }

theorem exists_ok_of_any {ε α : Type} {result : Except ε α} {p : α → Bool}
    (h : result.toOption.any p = true) : ∃ value, result = .ok value ∧ p value = true := by
  cases result with
  | error => cases h
  | ok value => exact ⟨value, rfl, h⟩

end Schemata
