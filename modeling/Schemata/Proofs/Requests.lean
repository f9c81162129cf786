import Schemata.Proofs.Reordering
import Schemata.Proofs.Roots

namespace Schemata

def Registry.withResolvers (registry : Registry) (resolvers : List (TypeName × ResolverMethod)) :
    Registry :=
  { registry with resolvers := resolvers }

/-- A request for the same classes, put to a registry that differs in the methods of other classes
only. -/
structure Registry.SameRequest (registry : Registry) (classes : List TypeName)
    (resolvers : List (TypeName × ResolverMethod)) (others : List TypeName) : Prop where
  methods : (registry.withResolvers resolvers).requested classes = registry.requested classes
  names : ∀ name, name ∈ classes.map (·.resolve registry.elementNames) ↔
    name ∈ others.map (·.resolve registry.elementNames)

namespace Catalog

def withResolvers (catalog : Catalog) (resolvers : List ResolverEntry) : Catalog :=
  { catalog with resolvers := resolvers }

section

variable (catalog : Catalog) (resolvers : List ResolverEntry)

theorem lineage_withResolvers : (catalog.withResolvers resolvers).lineage = catalog.lineage :=
  lineage_congr rfl rfl

theorem interfacesOf_withResolvers :
    (catalog.withResolvers resolvers).interfacesOf = catalog.interfacesOf :=
  interfacesOf_congr rfl rfl

theorem descend_withResolvers : (catalog.withResolvers resolvers).descend = catalog.descend := by
  funext chain
  induction chain with
  | nil => rfl
  | cons type rest ih =>
    funext fields cache
    rw [descend, descend, ih]
    rfl

theorem allFields_withResolvers :
    (catalog.withResolvers resolvers).allFields = catalog.allFields := by
  have hfields : (catalog.withResolvers resolvers).fieldsOf = catalog.fieldsOf := by
    funext cache name
    rw [fieldsOf, fieldsOf, lineage_withResolvers, descend_withResolvers]
  have hstep : (catalog.withResolvers resolvers).flattenStep = catalog.flattenStep := by
    funext state name
    rw [flattenStep, flattenStep, hfields]
  rw [allFields, allFields, hstep]
  rfl

theorem validate_withResolvers :
    (catalog.withResolvers resolvers).validate = catalog.validate := by
  have hinterface : Fulfilment.recordInterface (catalog.withResolvers resolvers) =
      Fulfilment.recordInterface catalog := by
    funext progress interface
    rw [Fulfilment.recordInterface, Fulfilment.recordInterface, lineage_withResolvers]
  have hobject : Fulfilment.checkObject (catalog.withResolvers resolvers) =
      Fulfilment.checkObject catalog := by
    funext inherit progress object
    rw [Fulfilment.checkObject, Fulfilment.checkObject, interfacesOf_withResolvers]
    rfl
  funext effective inherit
  rw [validate, validate, Fulfilment.run, Fulfilment.run, hinterface, hobject]
  rfl

end

end Catalog

section Stages

variable {registry : Registry} (resolvers : List (TypeName × ResolverMethod))

theorem Registry.Accepted.withResolvers (h : registry.Accepted) :
    (registry.withResolvers resolvers).Accepted :=
  { nodup := h.nodup
    not_builtin := h.not_builtin
    implementing := h.implementing
    parent := h.parent
    owners := h.owners
    extending := h.extending
    implementers := h.implementers }

theorem Catalog.ofRegistry_withResolvers {catalog : Catalog}
    (h : Catalog.ofRegistry registry = .ok catalog) :
    Catalog.ofRegistry (registry.withResolvers resolvers) =
      .ok (catalog.withResolvers (resolvers.map registry.resolverEntry)) := by
  obtain ⟨haccepted, rfl⟩ := Catalog.ofRegistry_eq_ok_iff.mp h
  exact Catalog.ofRegistry_eq_ok_iff.mpr ⟨haccepted.withResolvers resolvers, rfl⟩

/-- No stage before the roots looks at a resolver method. -/
theorem Groundwork.ofRegistry_withResolvers {options : AnalysisOptions} {groundwork : Groundwork}
    (h : Groundwork.ofRegistry options registry = .ok groundwork) :
    Groundwork.ofRegistry options (registry.withResolvers resolvers) =
      .ok { groundwork with
        catalog := groundwork.catalog.withResolvers (resolvers.map registry.resolverEntry) } := by
  obtain ⟨catalog, hcatalog, hground⟩ := Except.bind_eq_ok_iff.mp h
  obtain ⟨flattened, hflattened, hground⟩ := Except.bind_eq_ok_iff.mp hground
  obtain ⟨relation, hrelation, hground⟩ := Except.bind_eq_ok_iff.mp hground
  obtain ⟨hnone, rfl⟩ := unlessProblems_eq_ok_iff.mp hground
  refine Except.bind_eq_ok_iff.mpr ⟨_, Catalog.ofRegistry_withResolvers resolvers hcatalog, ?_⟩
  rw [Catalog.allFields_withResolvers, Catalog.validate_withResolvers]
  refine Except.bind_eq_ok_iff.mpr ⟨flattened, hflattened, ?_⟩
  refine Except.bind_eq_ok_iff.mpr ⟨relation, hrelation, ?_⟩
  exact unlessProblems_eq_ok_iff.mpr ⟨hnone, rfl⟩

end Stages

namespace PlainRoots

/-- A requested class is known if it has a method, which is then requested. -/
theorem classProblems_eq_nil_iff {catalog : Catalog} {classes : List TypeName} :
    (Roots.requestedClasses catalog classes).flatMap (classProblems catalog) = [] ↔
      ∀ name ∈ classes.map (·.resolve catalog.elements),
        ∃ entry ∈ requestedMethods catalog classes, entry.resolverClass = name := by
  rw [List.flatMap_eq_nil_iff]
  simp only [mem_requestedClasses, requestedMethods, List.mem_filter, decide_eq_true_eq]
  refine forall₂_congr fun name hname => ?_
  have hknown : classProblems catalog name = [] ↔
      ∃ entry ∈ catalog.resolvers, entry.resolverClass = name := by
    simp [classProblems]
  rw [hknown]
  constructor
  · rintro ⟨entry, hentry, rfl⟩
    exact ⟨entry, ⟨hentry, hname⟩, rfl⟩
  · rintro ⟨entry, ⟨hentry, -⟩, rfl⟩
    exact ⟨entry, hentry, rfl⟩

section

variable {options : AnalysisOptions} {catalog : Catalog} {effective : Table FieldSet}
  {resolvers : List ResolverEntry} {classes others : List TypeName}
  (hmethods : requestedMethods catalog classes =
    requestedMethods (catalog.withResolvers resolvers) others)

include hmethods

theorem draft_congr : draft options (catalog.withResolvers resolvers) effective others =
    draft options catalog effective classes := by
  rw [draft, draft, hmethods]
  rfl

theorem problems_congr
    (hnames : ∀ name, name ∈ classes.map (·.resolve catalog.elements) ↔
      name ∈ others.map (·.resolve catalog.elements))
    (h : problems options catalog effective classes = []) :
    problems options (catalog.withResolvers resolvers) effective others = [] := by
  rw [problems] at h ⊢
  simp only [List.append_eq_nil_iff, classProblems_eq_nil_iff] at h ⊢
  obtain ⟨hquery, hmutation, hclasses, hfound, hempty⟩ := h
  rw [draft_congr hmethods, ← hmethods]
  refine ⟨hquery, hmutation, fun name hname => ?_, hfound, hempty⟩
  exact hclasses name ((hnames name).mpr hname)

end

end PlainRoots

/-- Which methods are requested depends on what the names of the classes resolve to. -/
theorem Registry.requested_congr {registry : Registry} {classes others : List TypeName}
    (h : ∀ name, name ∈ classes.map (·.resolve registry.elementNames) ↔
      name ∈ others.map (·.resolve registry.elementNames)) :
    registry.requested classes = registry.requested others := by
  simp only [Registry.requested, h]

namespace Registry.SameRequest

variable {registry : Registry} {classes others : List TypeName}
  {resolvers : List (TypeName × ResolverMethod)}
  (h : registry.SameRequest classes resolvers others)

include h

theorem requested_others :
    (registry.withResolvers resolvers).requested others = registry.requested classes := by
  rw [← h.methods]
  exact requested_congr fun name => (h.names name).symm

theorem symm :
    (registry.withResolvers resolvers).SameRequest others registry.resolvers classes := by
  refine ⟨?_, fun name => (h.names name).symm⟩
  rw [h.requested_others]
  exact requested_congr fun name => (h.names name).symm

theorem analyze_eq_ok {options : AnalysisOptions} {model : SchemaModel}
    (hmodel : analyze options registry classes = .ok model) :
    analyze options (registry.withResolvers resolvers) others = .ok model := by
  obtain ⟨groundwork, hground, hrooted, rfl⟩ := analyze_eq_ok_iff.mp hmodel
  obtain ⟨catalog, _, hcatalog, -, -, -, -, rfl, -, -, -⟩ := Groundwork.exists_catalog hground
  obtain ⟨-, hsettled⟩ := Catalog.ofRegistry_eq_ok_iff.mp hcatalog
  have hmethods : PlainRoots.requestedMethods groundwork.catalog classes =
      PlainRoots.requestedMethods
        (groundwork.catalog.withResolvers (resolvers.map registry.resolverEntry)) others := by
    have hthere := (registry.withResolvers resolvers).requestedMethods_eq others
    rw [h.requested_others] at hthere
    rw [hsettled, registry.requestedMethods_eq]
    exact hthere.symm
  have helements : groundwork.catalog.elements = registry.elementNames := by rw [hsettled]; rfl
  have hnames := h.names
  rw [← helements] at hnames
  refine analyze_eq_ok_iff.mpr
    ⟨_, Groundwork.ofRegistry_withResolvers resolvers hground,
      PlainRoots.problems_congr hmethods hnames hrooted, ?_⟩
  rw [PlainRoots.draft_congr hmethods]
  rfl

end Registry.SameRequest

/-- The roots of a model offer the requested methods one for one, in the order of their registration
and each under its class. How the classes are listed and named makes no difference, and neither do
the methods of other classes, whatever is wrong with them. -/
theorem analyze_offers_requested (options : AnalysisOptions) (registry : Registry)
    (classes : List TypeName) :
    (∀ model, analyze options registry classes = .ok model → model.Offers registry classes) ∧
    ∀ resolvers others, registry.SameRequest classes resolvers others → ∀ model,
      analyze options registry classes = .ok model ↔
        analyze options (registry.withResolvers resolvers) others = .ok model := by
  refine ⟨fun model => SchemaModel.offers_of_analyze, fun resolvers others h model => ?_⟩
  exact ⟨h.analyze_eq_ok, h.symm.analyze_eq_ok⟩

def Registry.shelter : Registry :=
  { boarding with
    resolvers :=
      (.element ⟨"home::Owner"⟩, ⟨.mutation, .new "adopt" (.named (.literal "Pet"))⟩) ::
        boarding.resolvers }

def Registry.shelterAndAttic : List (TypeName × ResolverMethod) :=
  (.literal "Attic", ⟨.query, .new "pet" (.named (.literal "Ghost"))⟩) :: Registry.shelter.resolvers

theorem analyze_offers_requested_shelter :
    ∃ model, analyze {} Registry.shelter [.literal "Store", .literal "Keeper"] = .ok model ∧
      model.query.fields.map ModelField.name = ["pet"] ∧
      model.Offers Registry.shelter [.literal "Store", .literal "Keeper"] ∧
      Registry.shelter.SameRequest [.literal "Store", .literal "Keeper"] Registry.shelterAndAttic
        [.deferred 0 (.element ⟨"home::Owner"⟩), .literal "Store", .element ⟨"home::Owner"⟩] ∧
      analyze {} (Registry.shelter.withResolvers Registry.shelterAndAttic)
        [.deferred 0 (.element ⟨"home::Owner"⟩), .literal "Store", .element ⟨"home::Owner"⟩] =
          .ok model := by
  have hrun : (analyze {} Registry.shelter [.literal "Store", .literal "Keeper"]).toOption.any
      (fun model => decide (model.query.fields.map ModelField.name = ["pet"])) = true := by
    decide +kernel
  obtain ⟨model, hmodel, hnames⟩ := exists_ok_of_any hrun
  have hsame : Registry.shelter.SameRequest [.literal "Store", .literal "Keeper"]
      Registry.shelterAndAttic
      [.deferred 0 (.element ⟨"home::Owner"⟩), .literal "Store", .element ⟨"home::Owner"⟩] := by
    have hclasses : [TypeName.literal "Store", .literal "Keeper"].map
        (·.resolve Registry.shelter.elementNames) = ["Store", "Keeper"] := rfl
    have hothers : [TypeName.deferred 0 (.element ⟨"home::Owner"⟩), .literal "Store",
        .element ⟨"home::Owner"⟩].map (·.resolve Registry.shelter.elementNames) =
          ["Keeper", "Store", "Keeper"] := rfl
    refine ⟨rfl, fun name => ?_⟩
    rw [hclasses, hothers]
    simp only [List.mem_cons, List.not_mem_nil, or_false]
    grind
  obtain ⟨hoffers, hother⟩ := analyze_offers_requested {} Registry.shelter
    [.literal "Store", .literal "Keeper"]
  exact ⟨model, hmodel, of_decide_eq_true hnames, hoffers model hmodel, hsame,
    (hother _ _ hsame model).mp hmodel⟩

end Schemata
