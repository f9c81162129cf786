import Mathlib.Data.List.Forall2
import Schemata.Proofs.Analysis
import Schemata.Proofs.ElementNames

namespace Schemata

/-- Of values that are all the same the first is any of them. -/
theorem head?_eq_some_iff_mem {α : Type} {items : List α} {item : α}
    (hall : ∀ one ∈ items, ∀ other ∈ items, one = other) :
    items.head? = some item ↔ item ∈ items := by
  refine ⟨List.mem_of_head?, fun hm => ?_⟩
  obtain ⟨first, hfirst⟩ := Option.isSome_iff_exists.mp
    (List.isSome_head?.mpr (List.ne_nil_of_mem hm))
  rw [hfirst, hall first (List.mem_of_head? hfirst) item hm]

namespace Registry

/-- A parent that a type is given, by its declaration or by an edge. -/
inductive GivesParent (registry : Registry) (type : TypeDeclaration) : String → Prop
  | declared {parent : TypeName} (h : type.parent = some parent) :
      GivesParent registry type (parent.resolve registry.elementNames)
  | edge {edge : TypeName × TypeName} (hmem : edge ∈ registry.extensions)
      (howner : edge.1.resolve registry.elementNames = type.name) :
      GivesParent registry type (edge.2.resolve registry.elementNames)

variable {registry : Registry} {type : TypeDeclaration}

theorem mem_targets {edges : List (TypeName × TypeName)} {name target : String} :
    target ∈ registry.targets edges name ↔ ∃ edge ∈ edges,
      edge.1.resolve registry.elementNames = name ∧
        edge.2.resolve registry.elementNames = target := by
  simp only [targets, List.mem_map, List.mem_filter, decide_eq_true_eq, and_assoc]

theorem mem_parents_iff {parent : String} :
    parent ∈ registry.parents type ↔ registry.GivesParent type parent := by
  rw [parents, List.mem_append, Option.mem_toList, Option.map_eq_some_iff, mem_targets]
  constructor
  · rintro (⟨declared, hdeclared, rfl⟩ | ⟨edge, hmem, howner, rfl⟩)
    · exact .declared hdeclared
    · exact .edge hmem howner
  · rintro (hdeclared | ⟨hmem, howner⟩)
    · exact Or.inl ⟨_, hdeclared, rfl⟩
    · exact Or.inr ⟨_, hmem, howner, rfl⟩

end Registry

/-- A registry is accepted if and only if its names are distinct and not built in, its edges lead
from declared types, only objects have interfaces, and no type is given two parents. -/
theorem Catalog.exists_ofRegistry_iff (registry : Registry) :
    (∃ catalog, Catalog.ofRegistry registry = .ok catalog) ↔
      (registry.declarations.map Declaration.name).Nodup ∧
      (∀ declaration ∈ registry.declarations, isBuiltinScalar declaration.name = false) ∧
      (∀ late ∈ registry.fields, registry.Declares late.1) ∧
      (∀ edge ∈ registry.extensions, registry.Declares edge.1) ∧
      (∀ edge ∈ registry.implementations, registry.Declares edge.1) ∧
      (∀ type ∈ registry.types, type.kind ≠ .object → type.interfaces = [] ∧
        ∀ edge ∈ registry.implementations,
          edge.1.resolve registry.elementNames ≠ type.name) ∧
      ∀ type ∈ registry.types, ∀ parent other, registry.GivesParent type parent →
        registry.GivesParent type other → parent = other := by
  have hnone (type : TypeDeclaration) :
      registry.targets registry.implementations type.name = [] ↔
        ∀ edge ∈ registry.implementations,
          edge.1.resolve registry.elementNames ≠ type.name := by
    simp only [Registry.targets, List.map_eq_nil_iff, List.filter_eq_nil_iff, decide_eq_true_eq]
  simp only [ofRegistry_eq_ok_iff, exists_and_left, exists_eq, and_true]
  constructor
  · intro h
    refine ⟨h.nodup, h.not_builtin, h.owners, h.extending, h.implementers, fun type ht hkind => ?_,
      fun type ht parent other hparent hother => ?_⟩
    · rw [← hnone]
      exact (h.implementing type ht).resolve_left hkind
    · exact h.parent type ht parent (Registry.mem_parents_iff.mpr hparent) other
        (Registry.mem_parents_iff.mpr hother)
  · rintro ⟨hnodup, hbuiltin, howners, hextending, himplementers, hobjects, hparents⟩
    refine ⟨hnodup, hbuiltin, fun type ht => ?_, fun type ht parent hparent other hother => ?_,
      howners, hextending, himplementers⟩
    · rw [hnone, or_iff_not_imp_left]
      exact hobjects type ht
    · exact hparents type ht parent other (Registry.mem_parents_iff.mp hparent)
        (Registry.mem_parents_iff.mp hother)

/-- `entry` is the declared `type` with all that was registered for it. Its own interfaces come
first, then those of edges, each once. -/
structure TypeEntry.Gathers (entry : TypeEntry) (registry : Registry) (type : TypeDeclaration) :
    Prop where
  kind : entry.kind = type.kind
  description : entry.description = type.description
  isTypeOf : entry.isTypeOf = type.isTypeOf
  resolveType : entry.resolveType = type.resolveType
  fields : entry.fields = type.fields ++ (registry.fields.filter fun late =>
    decide (late.1.resolve registry.elementNames = type.name)).map Prod.snd
  parent : ∀ parent, entry.parent = some parent ↔ registry.GivesParent type parent
  interfaces : entry.interfaces =
    type.interfaces.map (·.resolve registry.elementNames) ++
      ((registry.targets registry.implementations type.name).filter fun interface =>
        decide (interface ∉ type.interfaces.map (·.resolve registry.elementNames))).eraseDups

/-- `catalog` holds each declaration of `registry` once and in order. An element has one name in all
references to it, that of the last type declared for it. -/
structure Catalog.Gathers (catalog : Catalog) (registry : Registry) : Prop where
  wellNamed : catalog.WellNamed
  types : List.Forall₂ (fun type entry => entry.1 = type.name ∧ entry.2.Gathers registry type)
    registry.types catalog.types
  scalars : catalog.scalars = registry.scalars.map fun scalar => (scalar.name, scalar)
  enums : catalog.enums = registry.enums.map fun enum => (enum.name, enum)
  unions : catalog.unions = registry.unions.map fun union =>
    (union.name,
      { description := union.description
        members := union.members.map (·.resolve registry.elementNames)
        resolveType := union.resolveType })
  resolvers : catalog.resolvers = registry.resolvers.map fun resolver =>
    ⟨resolver.1.resolve registry.elementNames, resolver.2⟩
  elements : catalog.elements = registry.elementNames
  references : ∀ (name : TypeName) (host : Element), name.settled = .element host →
    name.resolve registry.elementNames = registry.nameOf host

theorem Registry.Accepted.gathers_settledEntry {registry : Registry} (h : registry.Accepted)
    {type : TypeDeclaration} (ht : type ∈ registry.types) :
    (registry.settledEntry type).Gathers registry type where
  kind := rfl
  description := rfl
  isTypeOf := rfl
  resolveType := rfl
  fields := rfl
  parent _ := (head?_eq_some_iff_mem (h.parent type ht)).trans mem_parents_iff
  interfaces := mergeNames_eq _ _

/-- The catalog of a registry holds the registry with its edges attached, and no name twice. -/
theorem Catalog.gathers_of_ofRegistry {registry : Registry} {catalog : Catalog}
    (h : Catalog.ofRegistry registry = .ok catalog) : catalog.Gathers registry := by
  have hnamed := ofRegistry_wellNamed h
  obtain ⟨haccepted, rfl⟩ := ofRegistry_eq_ok_iff.mp h
  refine
    { wellNamed := hnamed
      types := ?_
      scalars := rfl
      enums := rfl
      unions := rfl
      resolvers := rfl
      elements := rfl
      references := fun _ _ => Registry.resolve_elementNames }
  rw [Registry.settledCatalog, List.forall₂_map_right_iff, List.forall₂_same]
  exact fun type ht => ⟨rfl, haccepted.gathers_settledEntry ht⟩

def Registry.people : Registry :=
  { types :=
      [{ TypeDeclaration.new .object "Person" with
          element := some ⟨"app::Person"⟩
          fields := [.new "email" (.named (.literal "String"))]
          interfaces := [.element ⟨"app::Contact"⟩] },
        { TypeDeclaration.new .object "Entity" with element := some ⟨"app::Base"⟩ },
        { TypeDeclaration.new .interface "Reachable" with element := some ⟨"app::Contact"⟩ },
        .new .interface "Node"]
    fields :=
      [(.element ⟨"app::Base"⟩, .new "id" (.named (.literal "ID"))),
        (.literal "Person", .new "name" (.named (.literal "String"))),
        (.deferred 0 (.element ⟨"app::Person"⟩), .new "phone" (.named (.literal "String")))]
    extensions := [(.element ⟨"app::Person"⟩, .deferred 1 (.element ⟨"app::Base"⟩))]
    implementations :=
      [(.literal "Person", .literal "Reachable"), (.element ⟨"app::Person"⟩, .literal "Node"),
        (.literal "Person", .literal "Node")]
    unions := [⟨"Member", [.element ⟨"app::Person"⟩, .element ⟨"app::Base"⟩], none, none⟩] }

theorem Catalog.gathers_people :
    ∃ catalog, Catalog.ofRegistry Registry.people = .ok catalog ∧
      catalog.Gathers Registry.people ∧
      catalog.types.map (fun type => (type.1, type.2.parent, type.2.interfaces,
        type.2.fields.map FieldDeclaration.name)) =
          [("Person", some "Entity", ["Reachable", "Node"], ["email", "name", "phone"]),
            ("Entity", none, [], ["id"]), ("Reachable", none, [], []), ("Node", none, [], [])] ∧
      catalog.unions.map (fun union => (union.1, union.2.members)) =
        [("Member", ["Person", "Entity"])] := by
  have hrun : (Catalog.ofRegistry Registry.people).toOption.any (fun catalog => decide (
      catalog.types.map (fun type => (type.1, type.2.parent, type.2.interfaces,
        type.2.fields.map FieldDeclaration.name)) =
          [("Person", some "Entity", ["Reachable", "Node"], ["email", "name", "phone"]),
            ("Entity", none, [], ["id"]), ("Reachable", none, [], []), ("Node", none, [], [])] ∧
      catalog.unions.map (fun union => (union.1, union.2.members)) =
        [("Member", ["Person", "Entity"])])) = true := by
    decide +kernel
  obtain ⟨catalog, hcatalog, hfacts⟩ := exists_ok_of_any hrun
  exact ⟨catalog, hcatalog, gathers_of_ofRegistry hcatalog, of_decide_eq_true hfacts⟩

end Schemata
