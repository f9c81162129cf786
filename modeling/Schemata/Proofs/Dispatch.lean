import Schemata.GraphQL.TypeGraph
import Schemata.Proofs.AnalysedModel

namespace Schemata

namespace TypeSystem

/-- The objects that implement an interface, in their order, or the members of a union. -/
def possibleTypes (types : TypeSystem) (abstract : String) : List String :=
  match Table.get? types.interfaces abstract with
  | some _ => (types.objects.filter fun object =>
      decide (abstract ∈ object.2.interfaces)).map Prod.fst
  | none => ((Table.get? types.unions abstract).map UnionType.members).getD []

def strategy? (types : TypeSystem) (abstract : String) : Option TypeStrategy :=
  match Table.get? types.interfaces abstract with
  | some interface => interface.resolveType
  | none => (Table.get? types.unions abstract).bind UnionType.resolveType

def recognizes (types : TypeSystem) (record : Record) (name : String) : Bool :=
  ((Table.get? types.objects name).bind ObjectType.isTypeOf).any (· record)

def IsPossible (types : TypeSystem) (abstract name : String) : Prop :=
  ∃ object, Table.get? types.objects name = some object ∧
    (abstract ∈ Table.keys types.interfaces → abstract ∈ object.interfaces) ∧
    ∀ union, Table.get? types.unions abstract = some union → name ∈ union.members

end TypeSystem

namespace Discriminator

/-- A discriminator that decides by the tag of a record, and for an untagged one of which the
strategy knows nothing by the predicates of the possible types, in their order. -/
structure Decides (discriminator : Discriminator) (types : TypeSystem) (abstract : String) : Prop where
  sound : ∀ record field name, discriminator.discriminate record field = .ok name →
    types.IsPossible abstract name
  tagged : ∀ record field tag, record.tag = some tag → ∀ name,
    discriminator.discriminate record field = .ok name ↔
      tag.resolve types.elements = name ∧ types.IsPossible abstract name
  recognized : ∀ record field, record.tag = none → (types.strategy? abstract).bind (· record) = none →
    ∀ name, discriminator.discriminate record field = .ok name ↔
      (types.possibleTypes abstract).find? (types.recognizes record) = some name
  unresolvable : ∀ record field, record.tag = none →
    (types.strategy? abstract).bind (· record) = none →
    (discriminator.discriminate record field = .error (.unresolvable abstract field) ↔
      ∀ name ∈ types.possibleTypes abstract, types.recognizes record name = false)

def ofPossible (types : TypeSystem) (abstract : String) : Discriminator :=
  ⟨abstract, (types.possibleTypes abstract).map types.implementer, types.strategy? abstract,
    types.elements⟩

variable {types : TypeSystem} {abstract : String}

theorem isImplementer_ofPossible {name : String} :
    (ofPossible types abstract).isImplementer name = true ↔ name ∈ types.possibleTypes abstract := by
  simp only [isImplementer, ofPossible, TypeSystem.implementer, List.any_map, List.any_eq_true,
    Function.comp_apply, beq_iff_eq, exists_eq_right]

theorem checked_eq_ok_iff {name field result : String} :
    (ofPossible types abstract).checked name field = .ok result ↔
      name = result ∧ result ∈ types.possibleTypes abstract := by
  rw [checked]
  split
  next h =>
    rw [isImplementer_ofPossible] at h
    refine ⟨fun he => ?_, fun he => congrArg Except.ok he.1⟩
    obtain rfl := Except.ok.inj he
    exact ⟨rfl, h⟩
  next h =>
    refine ⟨nofun, ?_⟩
    rintro ⟨rfl, hm⟩
    exact absurd (isImplementer_ofPossible.mpr hm) h

theorem find?_ofPossible (record : Record) :
    (ofPossible types abstract).implementers.find? (accepts · record) =
      ((types.possibleTypes abstract).find? (types.recognizes record)).map types.implementer :=
  List.find?_map

theorem discriminate_of_tag {record : Record} {tag : TypeName} (htag : record.tag = some tag)
    (field : String) :
    (ofPossible types abstract).discriminate record field =
      (ofPossible types abstract).checked (tag.resolve types.elements) field := by
  rw [discriminate, htag]
  rfl

theorem discriminate_of_strategy {record : Record} {name : String} (htag : record.tag = none)
    (hname : (types.strategy? abstract).bind (· record) = some name) (field : String) :
    (ofPossible types abstract).discriminate record field =
      (ofPossible types abstract).checked name field := by
  have hstrategy : (ofPossible types abstract).resolveType.bind (· record) = some name := hname
  rw [discriminate, htag]
  dsimp only
  rw [hstrategy]

theorem discriminate_of_predicates {record : Record} (htag : record.tag = none)
    (hname : (types.strategy? abstract).bind (· record) = none) (field : String) :
    (ofPossible types abstract).discriminate record field =
      match (types.possibleTypes abstract).find? (types.recognizes record) with
      | some name => .ok name
      | none => .error (.unresolvable abstract field) := by
  have hstrategy : (ofPossible types abstract).resolveType.bind (· record) = none := hname
  rw [discriminate, htag]
  dsimp only
  rw [hstrategy, find?_ofPossible]
  cases (types.possibleTypes abstract).find? (types.recognizes record) <;> rfl

theorem discriminate_mem {record : Record} {field name : String}
    (h : (ofPossible types abstract).discriminate record field = .ok name) :
    name ∈ types.possibleTypes abstract := by
  cases htag : record.tag with
  | some tag =>
    rw [discriminate_of_tag htag, checked_eq_ok_iff] at h
    exact h.2
  | none =>
    cases hname : (types.strategy? abstract).bind (· record) with
    | some named =>
      rw [discriminate_of_strategy htag hname, checked_eq_ok_iff] at h
      exact h.2
    | none =>
      rw [discriminate_of_predicates htag hname] at h
      split at h
      next found hfound =>
        obtain rfl := Except.ok.inj h
        exact List.mem_of_find?_eq_some hfound
      next => cases h

/-- Such a discriminator decides as it should, if the possible types are as they should be. -/
theorem ofPossible_decides
    (hpossible : ∀ name, name ∈ types.possibleTypes abstract ↔ types.IsPossible abstract name) :
    (ofPossible types abstract).Decides types abstract where
  sound := fun _ _ _ h => (hpossible _).mp (discriminate_mem h)
  tagged := by
    intro record field tag htag name
    rw [discriminate_of_tag htag, checked_eq_ok_iff, hpossible]
  recognized := by
    intro record field htag hname name
    rw [discriminate_of_predicates htag hname]
    cases (types.possibleTypes abstract).find? (types.recognizes record) <;> simp
  unresolvable := by
    intro record field htag hname
    rw [discriminate_of_predicates htag hname]
    cases hfind : (types.possibleTypes abstract).find? (types.recognizes record) with
    | none => simpa using hfind
    | some found =>
      refine ⟨nofun, fun hall => ?_⟩
      have hfound := hall found (List.mem_of_find?_eq_some hfind)
      rw [List.find?_some hfind] at hfound
      cases hfound

end Discriminator

theorem TypeSystem.abstract_of_kindOf {types : TypeSystem} {name : String}
    (h : types.kindOf name = some .interface ∨ types.kindOf name = some .union) :
    name ∈ Table.keys types.interfaces ++ Table.keys types.unions := by
  rw [List.mem_append, ← Table.contains_iff, ← Table.contains_iff]
  unfold TypeSystem.kindOf at h
  by_cases hinterface : Table.contains types.interfaces name = true
  · exact Or.inl hinterface
  · refine Or.inr ?_
    rw [if_neg hinterface] at h
    by_contra hunion
    rw [if_neg hunion] at h
    split_ifs at h <;> simp at h

theorem GraphQL.Shaping.shapeRecord_of_abstract {shaping : Shaping} {type : String}
    (hkind : shaping.types.kindOf type = some .interface ∨
      shaping.types.kindOf type = some .union)
    {discriminator : Discriminator}
    (hget : Table.get? shaping.discriminators type = some discriminator) (record : Record)
    (path : String) :
    shaping.shapeRecord record type path =
      match discriminator.discriminate record path with
      | .ok concrete => .ok (.record record.settled (some concrete))
      | .error error => .error (Failure.discrimination error).toFieldError := by
  cases hdecided : discriminator.discriminate record path with
  | ok concrete => rcases hkind with hkind | hkind <;> simp only [shapeRecord, hkind, hget, hdecided]
  | error error => rcases hkind with hkind | hkind <;> simp only [shapeRecord, hkind, hget, hdecided]

theorem discrimination_ne_unavailable (error : DiscriminationError) :
    (Failure.discrimination error).toFieldError ≠ Failure.schemaUnavailable.toFieldError := by
  intro he
  have hcode := congrArg FieldError.code he
  simp [Failure.toFieldError, Failure.code] at hcode

namespace Analysed

variable {options : AnalysisOptions} {classes : List TypeName} {catalog : Catalog}
  {model : SchemaModel}

theorem objects_nodup (h : Analysed options classes catalog model) :
    (Table.keys model.objects).Nodup := by
  rw [h.keys_objects]
  exact h.named.typesOfKind_nodup _

/-- The names of the abstract types, none of which is both an interface and a union. -/
theorem abstract_nodup (h : Analysed options classes catalog model) :
    (Table.keys model.interfaces ++ Table.keys model.unions).Nodup := by
  rw [List.nodup_append]
  refine ⟨?_, ?_, ?_⟩
  · rw [h.interfaces, Table.keys_map]
    exact h.named.typesOfKind_nodup _
  · rw [h.unions, Table.keys_map]
    exact h.named.unions_nodup
  · intro name hname other hother he
    obtain ⟨entry, hentry, -⟩ := h.mem_keys_interfaces.mp hname
    rw [h.unions, Table.keys_map, ← he] at hother
    exact (h.named.notMem_of_type (Table.mem_keys_of_get? hentry)).2.2 hother

/-- A name is looked up among the interfaces first, but a union is not found there. -/
theorem interface_or_union (h : Analysed options classes catalog model) {abstract : String}
    (habstract : abstract ∈ Table.keys model.interfaces ++ Table.keys model.unions) :
    (∃ type, Table.get? model.interfaces abstract = some type ∧
        Table.get? model.unions abstract = none) ∨
      ∃ union, Table.get? model.unions abstract = some union ∧
        Table.get? model.interfaces abstract = none := by
  have hdisjoint := (List.nodup_append.mp h.abstract_nodup).2.2
  rcases List.mem_append.mp habstract with hinterface | hunion
  · obtain ⟨type, htype⟩ := Table.exists_get?_of_mem_keys hinterface
    refine Or.inl ⟨type, htype, (Table.get?_eq_none_iff _ _).mpr fun hunion => ?_⟩
    exact hdisjoint abstract hinterface abstract hunion rfl
  · obtain ⟨union, hget⟩ := Table.exists_get?_of_mem_keys hunion
    refine Or.inr ⟨union, hget, (Table.get?_eq_none_iff _ _).mpr fun hinterface => ?_⟩
    exact hdisjoint abstract hinterface abstract hunion rfl

theorem member_of_union (h : Analysed options classes catalog model) {name : String}
    {union : UnionType} (hunion : Table.get? model.unions name = some union) {member : String}
    (hmember : member ∈ union.members) : member ∈ Table.keys model.objects := by
  have hentry := Table.mem_of_get? hunion
  rw [h.unions] at hentry
  obtain ⟨found, hfound, he⟩ := List.mem_map.mp hentry
  obtain ⟨-, rfl⟩ := Prod.mk.inj he
  exact h.member_declared hfound hmember

theorem mem_possibleTypes (h : Analysed options classes catalog model) {abstract : String}
    (habstract : abstract ∈ Table.keys model.interfaces ++ Table.keys model.unions) (name : String) :
    name ∈ model.possibleTypes abstract ↔ model.IsPossible abstract name := by
  rw [TypeSystem.possibleTypes, TypeSystem.IsPossible]
  rcases h.interface_or_union habstract with ⟨type, htype, hunion⟩ | ⟨union, hunion, hinterface⟩
  · rw [htype, hunion]
    constructor
    · intro hm
      obtain ⟨⟨found, object⟩, hfound, rfl⟩ := List.mem_map.mp hm
      obtain ⟨hobject, hlists⟩ := List.mem_filter.mp hfound
      exact ⟨object, Table.get?_of_mem h.objects_nodup hobject,
        fun _ => of_decide_eq_true hlists, nofun⟩
    · rintro ⟨object, hobject, hlists, -⟩
      have hlisted := decide_eq_true (hlists (Table.mem_keys_of_get? htype))
      exact List.mem_map.mpr
        ⟨(name, object), List.mem_filter.mpr ⟨Table.mem_of_get? hobject, hlisted⟩, rfl⟩
  · rw [hinterface, hunion, Option.map_some, Option.getD_some]
    constructor
    · intro hmember
      obtain ⟨object, hobject⟩ := Table.exists_get?_of_mem_keys (h.member_of_union hunion hmember)
      refine ⟨object, hobject, fun hm => ?_, fun other hother => ?_⟩
      · exact absurd hm ((Table.get?_eq_none_iff _ _).mp hinterface)
      · obtain rfl := Option.some.inj hother
        exact hmember
    · rintro ⟨object, -, -, hmembers⟩
      exact hmembers union rfl

theorem discriminator?_eq (h : Analysed options classes catalog model) {abstract : String}
    (habstract : abstract ∈ Table.keys model.interfaces ++ Table.keys model.unions) :
    model.discriminator? abstract = some (.ofPossible model.toTypeSystem abstract) := by
  rw [TypeSystem.discriminator?, Discriminator.ofPossible, TypeSystem.possibleTypes,
    TypeSystem.strategy?]
  rcases h.interface_or_union habstract with ⟨type, htype, -⟩ | ⟨union, hunion, hinterface⟩
  · rw [htype]
    dsimp only
    rw [h.implementers (Table.mem_of_get? htype)]
  · rw [hinterface, hunion]
    rfl

/-- The discriminators from which values are shaped are those of the model. -/
theorem get?_discriminators (h : Analysed options classes catalog model) {abstract : String}
    (habstract : abstract ∈ Table.keys model.interfaces ++ Table.keys model.unions) :
    Table.get? (GraphQL.Shaping.ofTypes model.toTypeSystem).discriminators abstract =
      model.discriminator? abstract := by
  rw [GraphQL.Shaping.ofTypes]
  dsimp only
  rw [Table.get?_insertAll (Table.nodup_keys_filterMap _ h.abstract_nodup), Table.get?_filterMap,
    if_pos habstract, Table.get?_nil, Option.or_none]

/-- A record is refused for its type only. -/
theorem shapeRecord_ne_unavailable (h : Analysed options classes catalog model) (record : Record)
    (type path : String) :
    (GraphQL.Shaping.ofTypes model.toTypeSystem).shapeRecord record type path ≠
      .error Failure.schemaUnavailable.toFieldError := by
  -- Only at an abstract type is a discriminator looked up.
  by_cases habstract : model.kindOf type = some .interface ∨ model.kindOf type = some .union
  · have hnames := TypeSystem.abstract_of_kindOf habstract
    rw [GraphQL.Shaping.shapeRecord_of_abstract habstract
      ((h.get?_discriminators hnames).trans (h.discriminator?_eq hnames))]
    split
    next => nofun
    next =>
      intro he
      exact discrimination_ne_unavailable _ (Except.error.inj he)
  · rw [not_or] at habstract
    unfold GraphQL.Shaping.shapeRecord
    split
    next =>
      simp only [GraphQL.Shaping.checkTag]
      split
      next => nofun
      next =>
        split
        next => nofun
        next =>
      intro he
      exact discrimination_ne_unavailable _ (Except.error.inj he)
    next hkind => exact absurd hkind habstract.1
    next hkind => exact absurd hkind habstract.2
    next => nofun

end Analysed

/-- In a model that an analysis makes every interface and every union has a discriminator, which
chooses among the objects that the abstract type allows; so no record that a graph of the model
returns fails for want of one. The objects stand in the order of the catalog. -/
theorem analyze_dispatches {options : AnalysisOptions} {registry : Registry}
    {classes : List TypeName} {model : SchemaModel}
    (h : analyze options registry classes = .ok model) :
    (∀ abstract ∈ Table.keys model.interfaces ++ Table.keys model.unions,
      ∃ discriminator, model.discriminator? abstract = some discriminator ∧
        discriminator.Decides model.toTypeSystem abstract) ∧
    (∃ catalog, Catalog.ofRegistry registry = .ok catalog ∧
      Table.keys model.objects = Table.keys (catalog.typesOfKind .object)) ∧
    ∀ config graph, GraphQL.TypeGraph.ofModel config model = .ok graph →
      (∀ abstract ∈ Table.keys model.interfaces ++ Table.keys model.unions,
        graph.discriminator? abstract = model.discriminator? abstract) ∧
      ∀ record type path, graph.shaping.shapeRecord record type path ≠
        .error Failure.schemaUnavailable.toFieldError := by
  obtain ⟨catalog, hcatalog, hanalysed⟩ := analysed_of_analyze h
  refine ⟨fun abstract habstract => ?_, ⟨catalog, hcatalog, hanalysed.keys_objects⟩,
    fun config graph hgraph => ?_⟩
  · exact ⟨_, hanalysed.discriminator?_eq habstract,
      Discriminator.ofPossible_decides (hanalysed.mem_possibleTypes habstract)⟩
  · have hshaping : graph.shaping = .ofTypes model.toTypeSystem := by
      simp only [GraphQL.TypeGraph.ofModel] at hgraph
      split at hgraph
      next => rw [← Except.ok.inj hgraph]
      next => cases hgraph
    refine ⟨fun abstract habstract => ?_, ?_⟩
    · rw [GraphQL.TypeGraph.discriminator?, hshaping]
      exact hanalysed.get?_discriminators habstract
    · rw [hshaping]
      exact hanalysed.shapeRecord_ne_unavailable

theorem analyze_dispatches_kennel :
    ∃ model discriminator graph, analyze {} Registry.kennel [.literal "Store"] = .ok model ∧
      GraphQL.TypeGraph.ofModel {} model = .ok graph ∧
      model.discriminator? "Pet" = some discriminator ∧
      discriminator.Decides model.toTypeSystem "Pet" ∧
      graph.discriminator? "Pet" = some discriminator ∧
      model.possibleTypes "Pet" = ["Cat", "Dog"] ∧ model.possibleTypes "Node" = ["Dog", "Cat"] := by
  have hrun : (analyze {} Registry.kennel [.literal "Store"]).toOption.any (fun model =>
      (GraphQL.TypeGraph.ofModel {} model).toOption.any (fun _ => true) &&
        (decide ("Pet" ∈ Table.keys model.interfaces ++ Table.keys model.unions) &&
          (decide (model.possibleTypes "Pet" = ["Cat", "Dog"]) &&
            decide (model.possibleTypes "Node" = ["Dog", "Cat"])))) = true := by
    decide +kernel
  obtain ⟨model, hmodel, hfacts⟩ := exists_ok_of_any hrun
  simp only [Bool.and_eq_true, decide_eq_true_eq] at hfacts
  obtain ⟨hserved, hpet, hpossible⟩ := hfacts
  obtain ⟨graph, hgraph, -⟩ := exists_ok_of_any hserved
  obtain ⟨hdispatches, -, hgraphs⟩ := analyze_dispatches hmodel
  obtain ⟨discriminator, hfound, hdecides⟩ := hdispatches "Pet" hpet
  have hsame := (hgraphs _ graph hgraph).1 "Pet" hpet
  exact ⟨model, discriminator, graph, hmodel, hgraph, hfound, hdecides, hsame.trans hfound,
    hpossible⟩

end Schemata
