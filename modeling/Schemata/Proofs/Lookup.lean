import Schemata.Proofs.AnalysedModel

namespace Schemata

namespace Catalog

section

variable {catalog other : Catalog} (h : catalog.get? = other.get?)

include h

theorem climb_congr : catalog.climb = other.climb := by
  funext fuel
  induction fuel with
  | zero =>
    funext chain current entry
    rw [climb, climb, h]
  | succ fuel ih =>
    funext chain current entry
    rw [climb, climb, h]
    simp only [ih]

/-- A lineage is found by looking up types, as many as there are at most. -/
theorem lineage_congr (hcount : catalog.types.length = other.types.length) :
    catalog.lineage = other.lineage := by
  funext name
  rw [lineage, lineage, h, climb_congr h, hcount]

theorem interfacesOf_congr (hcount : catalog.types.length = other.types.length) :
    catalog.interfacesOf = other.interfacesOf := by
  have hlineage := lineage_congr h hcount
  have himplemented : catalog.implementedBy = other.implementedBy := by
    funext type interface
    rw [implementedBy, implementedBy, h, hlineage]
  have hclauses : catalog.implementsClauses = other.implementsClauses := by
    funext chain
    rw [implementsClauses, implementsClauses, h]
  funext object
  rw [interfacesOf, interfacesOf, hlineage, himplemented, hclauses]

end

end Catalog

/-- Two catalogs that answer every question about a name alike. -/
structure Catalog.Alike (catalog other : Catalog) : Prop where
  resolve : TypeName.resolve catalog.elements = TypeName.resolve other.elements
  types : Table.get? catalog.types = Table.get? other.types
  scalars : Table.get? catalog.scalars = Table.get? other.scalars
  enums : Table.get? catalog.enums = Table.get? other.enums
  unions : Table.get? catalog.unions = Table.get? other.unions
  count : catalog.types.length = other.types.length
  resolvers : catalog.resolvers = other.resolvers

namespace Catalog.Alike

variable {catalog other : Catalog} (h : catalog.Alike other)

include h

theorem get? : catalog.get? = other.get? := by
  funext name
  rw [Catalog.get?, Catalog.get?, h.types]

theorem kindOf : catalog.kindOf = other.kindOf := by
  funext name
  rw [Catalog.kindOf, Catalog.kindOf, h.get?, Table.contains_congr h.scalars,
    Table.contains_congr h.enums, Table.contains_congr h.unions]

theorem signature : TypeExpr.signature catalog.elements = TypeExpr.signature other.elements := by
  funext type
  induction type with
  | named name => rw [TypeExpr.signature, TypeExpr.signature, h.resolve]
  | list item ih => rw [TypeExpr.signature, TypeExpr.signature, ih]
  | nonNull inner ih => rw [TypeExpr.signature, TypeExpr.signature, ih]

theorem lineage : catalog.lineage = other.lineage :=
  lineage_congr h.get? h.count

theorem isLineage_iff {name : String} {chain : List String} :
    catalog.IsLineage name chain ↔ other.IsLineage name chain := by
  rw [← lineage_eq_ok_iff, ← lineage_eq_ok_iff, h.lineage]

theorem ancestry : catalog.ancestry = other.ancestry := by
  funext name
  rw [Catalog.ancestry, Catalog.ancestry, h.lineage]

theorem chainFields : catalog.chainFields = other.chainFields := by
  funext chain
  induction chain with
  | nil => rfl
  | cons type ancestors ih => rw [Catalog.chainFields, Catalog.chainFields, h.get?, ih]

theorem flattened : Table.get? catalog.flattened = Table.get? other.flattened := by
  funext name
  rw [get?_flattened, get?_flattened, h.get?, h.chainFields, h.ancestry]

theorem interfacesOf : catalog.interfacesOf = other.interfacesOf :=
  interfacesOf_congr h.get? h.count

theorem signatureOf : Requirement.signatureOf catalog = Requirement.signatureOf other := by
  funext field
  rw [Requirement.signatureOf, Requirement.signatureOf, h.signature]

theorem linkSignature : Linking.signature catalog = Linking.signature other := by
  funext owner field type position
  rw [Linking.signature, Linking.signature, h.signature, h.kindOf]

theorem linkArgument : Linking.linkArgument catalog = Linking.linkArgument other := by
  funext owner field
  rw [Linking.linkArgument, Linking.linkArgument, h.linkSignature]

theorem memberProblems :
    PlainLinking.memberProblems catalog = PlainLinking.memberProblems other := by
  funext union member
  rw [PlainLinking.memberProblems, PlainLinking.memberProblems, h.kindOf]

theorem requestedMethods :
    PlainRoots.requestedMethods catalog = PlainRoots.requestedMethods other := by
  funext classes
  rw [PlainRoots.requestedMethods, PlainRoots.requestedMethods, h.resolvers,
    Roots.requestedClasses, Roots.requestedClasses, h.resolve]

section

variable {effective effective' : Table FieldSet}
  (he : Table.get? effective = Table.get? effective')

include he

open Requirement in
theorem argumentTypes :
    Requirement.argumentTypes catalog effective = Requirement.argumentTypes other effective' := by
  have hsource : sourceTypes catalog effective = sourceTypes other effective' := by
    funext source
    cases source with
    | single argument => rw [sourceTypes, sourceTypes, h.signatureOf]
    | set reference =>
      rw [sourceTypes, sourceTypes, h.signatureOf, h.kindOf, h.resolve, he]
  funext field
  rw [Requirement.argumentTypes, Requirement.argumentTypes, hsource]

omit h in
theorem requiredFields :
    Requirement.requiredFields effective = Requirement.requiredFields effective' := by
  funext interfaces
  rw [Requirement.requiredFields, Requirement.requiredFields, he]

open Requirement in
theorem suppliedFields :
    Requirement.suppliedFields catalog effective = Requirement.suppliedFields other effective' := by
  have hoffer : offer catalog = offer other := by
    funext own supplied name required
    rw [offer, offer, h.signatureOf]
  funext interfaces own
  rw [Requirement.suppliedFields, Requirement.suppliedFields, requiredFields he, hoffer]

open Requirement in
theorem violations :
    Requirement.violations catalog effective = Requirement.violations other effective' := by
  have hfield : fieldViolations catalog effective = fieldViolations other effective' := by
    funext object interface name required candidate
    cases candidate with
    | none => rfl
    | some found =>
      simp only [fieldViolations, h.signatureOf, h.argumentTypes he]
  funext object interfaces own supplied
  rw [Requirement.violations, Requirement.violations, requiredFields he, hfield]

theorem suppliedTo :
    Fulfilment.suppliedTo catalog effective = Fulfilment.suppliedTo other effective' := by
  funext inherit interfaces own
  rw [Fulfilment.suppliedTo, Fulfilment.suppliedTo, h.suppliedFields he]

theorem objectProblems :
    Fulfilment.objectProblems catalog effective = Fulfilment.objectProblems other effective' := by
  funext inherit object
  rw [Fulfilment.objectProblems, Fulfilment.objectProblems, h.interfacesOf, he, h.violations he,
    h.suppliedTo he]

theorem recorded? :
    Fulfilment.recorded? catalog effective = Fulfilment.recorded? other effective' := by
  funext object
  rw [Fulfilment.recorded?, Fulfilment.recorded?, h.interfacesOf, he]

theorem settledFields :
    Fulfilment.settledFields catalog effective = Fulfilment.settledFields other effective' := by
  funext inherit object own
  rw [Fulfilment.settledFields, Fulfilment.settledFields, h.interfacesOf, h.objectProblems he,
    h.suppliedTo he]

omit h in
theorem fieldsAt : PlainLinking.fieldsAt effective = PlainLinking.fieldsAt effective' := by
  funext name
  rw [PlainLinking.fieldsAt, PlainLinking.fieldsAt, he]

theorem setArguments :
    PlainLinking.setArguments catalog effective = PlainLinking.setArguments other effective' := by
  funext name
  rw [PlainLinking.setArguments, PlainLinking.setArguments, fieldsAt he, h.linkArgument]

theorem setProblems :
    PlainLinking.setProblems catalog effective = PlainLinking.setProblems other effective' := by
  funext name
  rw [PlainLinking.setProblems, PlainLinking.setProblems, fieldsAt he, h.linkArgument]

theorem linkField :
    PlainLinking.linkField catalog effective = PlainLinking.linkField other effective' := by
  have hsource : PlainLinking.sourceArguments catalog effective =
      PlainLinking.sourceArguments other effective' := by
    funext owner source
    cases source with
    | single argument =>
      rw [PlainLinking.sourceArguments, PlainLinking.sourceArguments, h.linkArgument]
    | set reference =>
      rw [PlainLinking.sourceArguments, PlainLinking.sourceArguments, h.kindOf, h.resolve,
        h.setArguments he]
  funext owner declaredBy field
  rw [PlainLinking.linkField, PlainLinking.linkField, PlainLinking.argumentTable,
    PlainLinking.argumentTable, hsource, h.linkSignature]

theorem fieldProblems :
    PlainLinking.fieldProblems catalog effective = PlainLinking.fieldProblems other effective' := by
  have hsource : PlainLinking.sourceProblems catalog effective =
      PlainLinking.sourceProblems other effective' := by
    funext owner field source
    cases source with
    | single argument =>
      rw [PlainLinking.sourceProblems, PlainLinking.sourceProblems, h.linkArgument]
    | set reference =>
      rw [PlainLinking.sourceProblems, PlainLinking.sourceProblems, h.kindOf, h.resolve,
        h.setProblems he]
  funext owner field
  rw [PlainLinking.fieldProblems, PlainLinking.fieldProblems, PlainLinking.argumentProblems,
    PlainLinking.argumentProblems, hsource, h.linkSignature]

theorem linkFields :
    PlainLinking.linkFields catalog effective = PlainLinking.linkFields other effective' := by
  funext owner
  rw [PlainLinking.linkFields, PlainLinking.linkFields, fieldsAt he, h.linkField he]

theorem inputType :
    PlainLinking.inputType catalog effective = PlainLinking.inputType other effective' := by
  funext name entry
  rw [PlainLinking.inputType, PlainLinking.inputType, fieldsAt he, h.linkArgument]

theorem typeProblems :
    PlainLinking.typeProblems catalog effective = PlainLinking.typeProblems other effective' := by
  funext type
  simp only [PlainLinking.typeProblems, PlainLinking.fieldsProblems, PlainLinking.inputProblems,
    PlainLinking.argumentSetProblems, fieldsAt he, h.fieldProblems he, h.linkArgument,
    h.setProblems he]

theorem addMethod (options : AnalysisOptions) :
    PlainRoots.addMethod options catalog effective =
      PlainRoots.addMethod options other effective' := by
  funext draft entry
  simp only [PlainRoots.addMethod, PlainRoots.rootField, h.linkField he]

theorem rootDraft (options : AnalysisOptions) :
    PlainRoots.draft options catalog effective = PlainRoots.draft options other effective' := by
  funext classes
  rw [PlainRoots.draft, PlainRoots.draft, h.requestedMethods, h.addMethod he]

theorem rootProblems (options : AnalysisOptions) :
    PlainRoots.problems options catalog effective =
      PlainRoots.problems options other effective' := by
  have hname : PlainRoots.nameProblems catalog = PlainRoots.nameProblems other := by
    funext name
    rw [PlainRoots.nameProblems, PlainRoots.nameProblems, h.kindOf]
  have hclass : PlainRoots.classProblems catalog = PlainRoots.classProblems other := by
    funext name
    rw [PlainRoots.classProblems, PlainRoots.classProblems, h.resolvers]
  have hmethod : PlainRoots.methodProblems options catalog effective =
      PlainRoots.methodProblems options other effective' := by
    funext draft entry
    rw [PlainRoots.methodProblems, PlainRoots.methodProblems, h.fieldProblems he]
  funext classes
  rw [PlainRoots.problems, PlainRoots.problems, hname, hclass, h.addMethod he, hmethod,
    h.requestedMethods, h.rootDraft he, Roots.requestedClasses, Roots.requestedClasses, h.resolve]

end

section

variable (hnamed : catalog.WellNamed) (hnamed' : other.WellNamed) (options : AnalysisOptions)

include hnamed hnamed'

theorem mem_typesOfKind_iff {kind : TypeKind} {name : String} :
    name ∈ Table.keys (catalog.typesOfKind kind) ↔ name ∈ Table.keys (other.typesOfKind kind) := by
  rw [hnamed.mem_typesOfKind, hnamed'.mem_typesOfKind, h.get?]

theorem keys_typesOfKind_perm (kind : TypeKind) :
    (Table.keys (catalog.typesOfKind kind)).Perm (Table.keys (other.typesOfKind kind)) :=
  (List.perm_ext_iff_of_nodup (hnamed.typesOfKind_nodup kind) (hnamed'.typesOfKind_nodup kind)).mpr
    fun _ => h.mem_typesOfKind_iff hnamed hnamed'

theorem finalFields :
    Table.get? (catalog.finalFields options) = Table.get? (other.finalFields options) := by
  funext name
  rw [Catalog.finalFields, Catalog.finalFields, Catalog.fulfilment, Catalog.fulfilment,
    Fulfilment.get?_run_effective _ _ _ hnamed.types_nodup,
    Fulfilment.get?_run_effective _ _ _ hnamed'.types_nodup, h.flattened,
    h.settledFields h.flattened]
  simp only [h.mem_typesOfKind_iff hnamed hnamed']

theorem fulfilled_iff :
    (catalog.fulfilment options).problems = [] ↔ (other.fulfilment options).problems = [] := by
  rw [Catalog.fulfilment, Catalog.fulfilment,
    Fulfilment.run_problems_eq_nil_iff _ _ _ hnamed.types_nodup,
    Fulfilment.run_problems_eq_nil_iff _ _ _ hnamed'.types_nodup, h.lineage,
    h.objectProblems h.flattened]
  simp only [h.mem_typesOfKind_iff hnamed hnamed']

theorem relation_interfaces :
    Table.get? (catalog.fulfilment options).relation.interfaces =
      Table.get? (other.fulfilment options).relation.interfaces := by
  funext name
  rw [Catalog.fulfilment, Catalog.fulfilment,
    Fulfilment.run_interfaces _ _ _ hnamed.types_nodup,
    Fulfilment.run_interfaces _ _ _ hnamed'.types_nodup,
    Table.get?_filterMap, Table.get?_filterMap, h.recorded? h.flattened]
  simp only [h.mem_typesOfKind_iff hnamed hnamed']

theorem relation_ancestors :
    Table.get? (catalog.fulfilment options).relation.ancestors =
      Table.get? (other.fulfilment options).relation.ancestors := by
  funext name
  rw [Catalog.fulfilment, Catalog.fulfilment,
    Fulfilment.get?_ancestors _ _ _ hnamed.types_nodup,
    Fulfilment.get?_ancestors _ _ _ hnamed'.types_nodup, h.lineage]
  simp only [h.mem_typesOfKind_iff hnamed hnamed']

/-- The implementers are listed in the order of the objects, so this is where the order shows. -/
theorem relation_implementers (name : String) :
    ((Table.get? (catalog.fulfilment options).relation.implementers name).getD []).Perm
      ((Table.get? (other.fulfilment options).relation.implementers name).getD []) := by
  rw [Catalog.fulfilment, Catalog.fulfilment,
    Fulfilment.run_implementers _ _ _ hnamed.types_nodup,
    Fulfilment.run_implementers _ _ _ hnamed'.types_nodup, Table.get?_names_map,
    Table.get?_names_map, h.recorded? h.flattened]
  simp only [h.mem_typesOfKind_iff hnamed hnamed']
  split
  next => exact (h.keys_typesOfKind_perm hnamed hnamed' .object).filter _
  next => exact .refl _

theorem linked_iff :
    PlainLinking.problems catalog (catalog.finalFields options) = [] ↔
      PlainLinking.problems other (other.finalFields options) = [] := by
  have htypes (type : String × TypeEntry) : type ∈ catalog.types ↔ type ∈ other.types := by
    rw [← Table.get?_eq_some_iff hnamed.types_nodup, ← Table.get?_eq_some_iff hnamed'.types_nodup,
      h.types]
  have hunions (union : String × UnionEntry) : union ∈ catalog.unions ↔ union ∈ other.unions := by
    rw [← Table.get?_eq_some_iff hnamed.unions_nodup,
      ← Table.get?_eq_some_iff hnamed'.unions_nodup, h.unions]
  simp only [PlainLinking.problems, List.append_eq_nil_iff, List.flatMap_eq_nil_iff, htypes,
    hunions, h.typeProblems (h.finalFields hnamed hnamed' options), h.memberProblems]

omit hnamed hnamed' in
theorem lineages_iff :
    (∀ name ∈ Table.keys catalog.types, ∃ chain, catalog.IsLineage name chain) ↔
      ∀ name ∈ Table.keys other.types, ∃ chain, other.IsLineage name chain := by
  simp only [← Table.contains_iff, Table.contains, h.types, h.isLineage_iff]

end

end Catalog.Alike

end Schemata
