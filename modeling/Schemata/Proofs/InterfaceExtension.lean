import Schemata.Proofs.Conformance
import Schemata.Proofs.InterfaceRelation
import Schemata.Proofs.Representation

namespace Schemata

/-- Two fields that one field can stand for. -/
structure ModelField.Compatible (field other : ModelField) : Prop where
  type : field.type = other.type
  arguments : ∀ argument ∈ field.arguments, ∀ taken ∈ other.arguments,
    argument.name = taken.name → argument.type = taken.type
  further : ∀ argument ∈ field.arguments,
    (∀ taken ∈ other.arguments, taken.name ≠ argument.name) → argument.type.isNonNull = false
  lacking : ∀ taken ∈ other.arguments,
    (∀ argument ∈ field.arguments, argument.name ≠ taken.name) → taken.type.isNonNull = false

instance (field required : ModelField) : Decidable (field.Implements required) :=
  decidable_of_iff
    (field.type = required.type ∧
      (∀ argument ∈ required.arguments,
        ∃ taken ∈ field.arguments, taken.name = argument.name ∧ taken.type = argument.type) ∧
      ∀ taken ∈ field.arguments,
        (∀ argument ∈ required.arguments, argument.name ≠ taken.name) →
          taken.type.isNonNull = false)
    ⟨fun h => ⟨h.1, h.2.1, h.2.2⟩, fun h => ⟨h.type, h.arguments, h.further⟩⟩

/-- An interface that extends another without a field that implements one of its fields. -/
def SchemaModel.Diverges (model : SchemaModel) (name parent : String) : Prop :=
  ∃ interface ∈ model.interfaces, interface.1 = name ∧ parent ∈ interface.2.interfaces ∧
    ∃ above ∈ model.interfaces, above.1 = parent ∧ ∃ inherited ∈ above.2.fields,
      ∀ field ∈ interface.2.fields, field.name = inherited.name → ¬field.Implements inherited

instance (model : SchemaModel) (name parent : String) : Decidable (model.Diverges name parent) :=
  inferInstanceAs (Decidable (∃ interface ∈ model.interfaces, interface.1 = name ∧
    parent ∈ interface.2.interfaces ∧ ∃ above ∈ model.interfaces, above.1 = parent ∧
      ∃ inherited ∈ above.2.fields, ∀ field ∈ interface.2.fields,
        field.name = inherited.name → ¬field.Implements inherited))

/-- Some type of one of these names declares a field of this name. -/
def Registry.Redeclares (registry : Registry) (names : List String) (field : String) : Prop :=
  ∃ type ∈ registry.types, type.name ∈ names ∧
    ∃ declaration, registry.DeclaresField type declaration ∧ declaration.name = field

/-- The first of these types that declares a field of this name at all declares this one, as the
last of that name. -/
def Registry.DeclaresNearest (registry : Registry) (names : List String) (seen : SeenField) : Prop :=
  ∃ below type above, names = below ++ type.name :: above ∧ type ∈ registry.types ∧
    type.name = seen.owner ∧ ¬registry.Redeclares below seen.declaration.name ∧
    ∃ earlier later,
      type.fields ++ registry.lateFields type.name = earlier ++ seen.declaration :: later ∧
      ∀ other ∈ later, other.name ≠ seen.declaration.name

/-- A field that implements two others takes an argument of both of them once. -/
theorem ModelField.Implements.compatible {field left right : ModelField}
    (hn : (field.arguments.map ModelArgument.name).Nodup) (hleft : field.Implements left)
    (hright : field.Implements right) : left.Compatible right := by
  refine ⟨hleft.type.symm.trans hright.type, ?_, ?_, ?_⟩
  · intro argument hargument other hother hname
    obtain ⟨taken, htaken, hsame, htype⟩ := hleft.arguments argument hargument
    obtain ⟨found, hfound, hsame', htype'⟩ := hright.arguments other hother
    have hnames : taken.name = found.name := by rw [hsame, hsame', hname]
    obtain rfl := List.inj_on_of_nodup_map hn htaken hfound hnames
    rw [← htype, htype']
  · intro argument hargument hnew
    obtain ⟨taken, htaken, hsame, htype⟩ := hleft.arguments argument hargument
    rw [← htype]
    apply hright.further taken htaken
    intro other hother
    rw [hsame]
    exact hnew other hother
  · intro other hother hnew
    obtain ⟨taken, htaken, hsame, htype⟩ := hright.arguments other hother
    rw [← htype]
    apply hleft.further taken htaken
    intro argument hargument
    rw [hsame]
    exact hnew argument hargument

namespace Analysed

variable {options : AnalysisOptions} {classes : List TypeName} {catalog : Catalog}
  {model : SchemaModel}

theorem interfaces_nodup (h : Analysed options classes catalog model) :
    (Table.keys model.interfaces).Nodup := by
  rw [h.interfaces, Table.keys_map]
  exact h.named.typesOfKind_nodup _

/-- The interfaces that an interface extends are the rest of its lineage. -/
theorem interface_lineage (h : Analysed options classes catalog model) {name : String}
    {type : InterfaceType} (htype : (name, type) ∈ model.interfaces) :
    catalog.IsLineage name (name :: type.interfaces) := by
  rw [h.interfaces] at htype
  obtain ⟨entry, hentry, hkind, rfl⟩ := h.named.exists_entry_of_mem_map htype
  obtain ⟨chain, hchain⟩ := h.lineages name (Table.mem_keys_of_get? hentry)
  obtain ⟨ancestors, rfl⟩ := hchain.exists_cons
  rw [PlainLinking.interfaceType, h.recorded_ancestors hentry hkind hchain, Option.getD_some]
  exact hchain

/-- The fields of an interface are those along its lineage, linked. -/
theorem interface_fields (h : Analysed options classes catalog model) {name : String}
    {type : InterfaceType} (htype : (name, type) ∈ model.interfaces) :
    type.fields = PlainLinking.linkFields catalog (catalog.finalFields options) name ∧
      PlainLinking.fieldsProblems catalog (catalog.finalFields options) name = [] ∧
      Table.get? (catalog.finalFields options) name =
        some (catalog.chainFields (name :: type.interfaces)) := by
  have hchain := h.interface_lineage htype
  obtain ⟨entry, hentry, hkind⟩ := h.mem_keys_interfaces.mp (Table.mem_keys_of_mem htype)
  obtain ⟨found, fields, hfound, hflattened, hfinal, hlinked, hnone⟩ :=
    h.exists_interface hentry hkind
  obtain rfl := Option.some.inj ((Table.get?_of_mem h.interfaces_nodup htype).symm.trans hfound)
  refine ⟨hlinked, hnone, ?_⟩
  rw [Catalog.get?_flattened, hentry, Option.map_some, hchain.ancestry_eq] at hflattened
  obtain rfl := Option.some.inj hflattened
  exact hfinal

/-- Each field of an interface is the one last declared along its lineage. -/
theorem mem_interface_fields (h : Analysed options classes catalog model) {name : String}
    {type : InterfaceType} (htype : (name, type) ∈ model.interfaces) {field : ModelField} :
    field ∈ type.fields ↔ ∃ seen,
      (name :: type.interfaces).findSome? (catalog.lastDeclared field.name) = some seen ∧
        PlainLinking.linkField catalog (catalog.finalFields options) name seen.owner
          seen.declaration = some field := by
  obtain ⟨hfields, -, hfinal⟩ := h.interface_fields htype
  rw [hfields, PlainLinking.mem_linkFields_iff hfinal (catalog.chainFields_wellKeyed _)]
  simp only [Catalog.get?_chainFields]

/-- Between an interface and one that it extends stands the rest of its lineage. -/
theorem exists_between (h : Analysed options classes catalog model) {name parent : String}
    {type : InterfaceType} (htype : (name, type) ∈ model.interfaces)
    (hparent : parent ∈ type.interfaces) :
    ∃ above between, (parent, above) ∈ model.interfaces ∧
      type.interfaces = between ++ parent :: above.interfaces := by
  have hchain := h.interface_lineage htype
  obtain ⟨entry, hentry, hkind⟩ := h.mem_keys_interfaces.mp (Table.mem_keys_of_mem htype)
  obtain ⟨found, hfound, hsame⟩ :=
    hchain.declared hentry parent (List.mem_cons_of_mem name hparent)
  obtain ⟨above, habove⟩ := Table.exists_get?_of_mem_keys
    (h.mem_keys_interfaces.mpr ⟨found, hfound, hsame.trans hkind⟩)
  have hmem := Table.mem_of_get? habove
  obtain ⟨between, rest, hsplit⟩ := List.append_of_mem hparent
  rw [hsplit, ← List.cons_append] at hchain
  obtain rfl := (List.cons.inj (hchain.suffix.unique (h.interface_lineage hmem))).2
  exact ⟨above, between, hmem, hsplit⟩

/-- A field of an extended interface is passed on, unless it is declared anew below. -/
theorem exists_extended_field (h : Analysed options classes catalog model) {name parent : String}
    {type above : InterfaceType} (htype : (name, type) ∈ model.interfaces)
    (habove : (parent, above) ∈ model.interfaces) {between : List String}
    (hbetween : type.interfaces = between ++ parent :: above.interfaces) {inherited : ModelField}
    (hinherited : inherited ∈ above.fields) :
    ∃ field ∈ type.fields, field.name = inherited.name ∧
      (((name :: between).findSome? (catalog.lastDeclared inherited.name) = none ∧
          field = inherited) ∨
        ∃ seen, (name :: between).findSome? (catalog.lastDeclared inherited.name) = some seen ∧
          field.Renders catalog catalog.flattened seen) := by
  obtain ⟨seen, hseen, hlinked⟩ := (h.mem_interface_fields habove).mp hinherited
  have hchain := h.interface_lineage htype
  rw [hbetween, ← List.cons_append] at hchain
  obtain ⟨entry, hentry, hkind⟩ := h.mem_keys_interfaces.mp (Table.mem_keys_of_mem htype)
  rw [(h.interface_fields htype).1]
  exact h.exists_passed_on hchain hentry (by rw [hkind]; rfl) hseen hlinked

/-- An object that implements an interface implements those that it extends. -/
theorem extended_of_mem (h : Analysed options classes catalog model) {name parent owner : String}
    {type : InterfaceType} (htype : (name, type) ∈ model.interfaces)
    (hparent : parent ∈ type.interfaces) {object : ObjectType}
    (hobject : (owner, object) ∈ model.objects) (hname : name ∈ object.interfaces) :
    parent ∈ object.interfaces := by
  obtain ⟨interfaces, own, hsettled, rfl, -⟩ := h.exists_object hobject
  rw [Catalog.mem_interfacesOf hsettled.derived] at hname ⊢
  exact hname.ancestor (h.interface_lineage htype) parent (List.mem_cons_of_mem _ hparent)

/-- A field of an object stands for each field of its name in the interfaces of the object, and so
these are compatible. -/
theorem compatible (h : Analysed options classes catalog model) {owner left right : String}
    {object : ObjectType} (hobject : (owner, object) ∈ model.objects)
    (hleft : left ∈ object.interfaces) (hright : right ∈ object.interfaces)
    {type other : InterfaceType} (htype : (left, type) ∈ model.interfaces)
    (hother : (right, other) ∈ model.interfaces) {field twin : ModelField}
    (hfield : field ∈ type.fields) (htwin : twin ∈ other.fields) (hname : field.name = twin.name) :
    field.Compatible twin := by
  obtain ⟨found, hfound, hconforms⟩ := h.conforms hobject hleft
  obtain rfl := Option.some.inj ((Table.get?_of_mem h.interfaces_nodup htype).symm.trans hfound)
  obtain ⟨common, hcommon, himplements⟩ := hconforms field hfield
  have hcommon : common ∈ object.fields.filter fun other => decide (other.name = field.name) :=
    hcommon ▸ List.mem_singleton_self common
  obtain ⟨hmem, hsame⟩ := List.mem_filter.mp hcommon
  -- The field of the object is also the one that stands for the other.
  have himplements' := h.field_implements hobject hright
    (Table.get?_of_mem h.interfaces_nodup hother) htwin hmem
    ((of_decide_eq_true hsame).trans hname)
  obtain ⟨_, _, -, -, hfields, -⟩ := h.exists_object hobject
  rw [hfields] at hmem
  obtain ⟨seen, -, hlinked⟩ := List.mem_filterMap.mp hmem
  exact himplements.compatible (PlainLinking.argumentNames_nodup hlinked) himplements'

end Analysed

namespace Registry

variable {registry : Registry}

theorem not_redeclares (haccepted : registry.Accepted) {names : List String} {field : String}
    (h : names.findSome? (registry.settledCatalog.lastDeclared field) = none) :
    ¬registry.Redeclares names field := by
  rintro ⟨type, htype, hname, declaration, hdeclared, hfield⟩
  rw [List.findSome?_eq_none_iff] at h
  have hnone := h type.name hname
  rw [Catalog.lastDeclared, haccepted.get?_settledCatalog htype, Option.bind_some,
    Option.map_eq_none_iff, List.find?_eq_none] at hnone
  have hmem := List.mem_reverse.mpr (mem_settledEntry_iff.mpr hdeclared)
  exact hnone declaration hmem (decide_eq_true hfield)

theorem declaresNearest (haccepted : registry.Accepted) {names : List String} {field : String}
    {seen : SeenField}
    (h : names.findSome? (registry.settledCatalog.lastDeclared field) = some seen) :
    registry.DeclaresNearest names seen := by
  obtain ⟨below, owner, above, rfl, hdeclared, hbelow⟩ := List.findSome?_eq_some_iff.mp h
  obtain ⟨entry, hentry, hfound⟩ := Option.bind_eq_some_iff.mp hdeclared
  obtain ⟨declaration, hlast, rfl⟩ := Option.map_eq_some_iff.mp hfound
  obtain ⟨type, htype, rfl, rfl⟩ := exists_of_get?_settledCatalog hentry
  obtain ⟨hname, later, earlier, hsplit, hlater⟩ := List.find?_eq_some_iff_append.mp hlast
  obtain rfl := of_decide_eq_true hname
  refine ⟨below, type, above, rfl, htype, rfl,
    not_redeclares haccepted (List.findSome?_eq_none_iff.mpr hbelow),
    earlier.reverse, later.reverse, ?_, ?_⟩
  · simpa [settledEntry] using congrArg List.reverse hsplit
  · intro other hother
    simpa using hlater other (List.mem_reverse.mp hother)

end Registry

/-- An interface has exactly one field for each field of an interface it extends. It is the very same
unless an interface on the way declares it anew. Then the nearest such declaration replaces it
altogether, and if some object implements the interface, both are still of one type and agree on the
arguments that they share, and all others may be left out. -/
theorem analyze_extends {options : AnalysisOptions} {registry : Registry} {classes : List TypeName}
    {model : SchemaModel} (h : analyze options registry classes = .ok model) :
    ∃ catalog flattened, Catalog.ofRegistry registry = .ok catalog ∧
      catalog.allFields = .ok flattened ∧
      ∀ name type, (name, type) ∈ model.interfaces → ∀ parent ∈ type.interfaces,
        ∃ above between, (parent, above) ∈ model.interfaces ∧
          type.interfaces = between ++ parent :: above.interfaces ∧
          ∀ inherited ∈ above.fields, ∃ field,
            type.fields.filter (fun other => decide (other.name = inherited.name)) = [field] ∧
            ((¬registry.Redeclares (name :: between) inherited.name ∧ field = inherited) ∨
              ∃ seen, registry.DeclaresNearest (name :: between) seen ∧
                field.Renders catalog flattened seen) ∧
            (type.implementers ≠ [] → field.Compatible inherited) := by
  obtain ⟨catalog, hcatalog, hanalysed⟩ := analysed_of_analyze h
  obtain ⟨haccepted, hsettled⟩ := Catalog.ofRegistry_eq_ok_iff.mp hcatalog
  refine ⟨catalog, catalog.flattened, hcatalog, hanalysed.allFields_eq, ?_⟩
  intro name type htype parent hparent
  obtain ⟨above, between, habove, hbetween⟩ := hanalysed.exists_between htype hparent
  refine ⟨above, between, habove, hbetween, fun inherited hinherited => ?_⟩
  obtain ⟨field, hfield, hname, hkept⟩ :=
    hanalysed.exists_extended_field htype habove hbetween hinherited
  refine ⟨field, ?_, ?_, ?_⟩
  · obtain ⟨hfields, hnone, -⟩ := hanalysed.interface_fields htype
    have hnodup := hanalysed.fieldNames_nodup hnone
    rw [← hfields] at hnodup
    rw [← hname]
    exact filter_name_eq_singleton hnodup hfield
  · rcases hkept with ⟨hkept, rfl⟩ | ⟨seen, hanew, hrenders⟩
    · rw [hsettled] at hkept
      exact Or.inl ⟨Registry.not_redeclares haccepted hkept, rfl⟩
    · rw [hsettled] at hanew
      exact Or.inr ⟨seen, Registry.declaresNearest haccepted hanew, hrenders⟩
  · intro himplemented
    rw [hanalysed.implementers htype, Ne, List.map_eq_nil_iff] at himplemented
    obtain ⟨⟨owner, object⟩, hmem⟩ := List.exists_mem_of_ne_nil _ himplemented
    obtain ⟨hobject, hlisted⟩ := List.mem_filter.mp hmem
    have hlisted := of_decide_eq_true hlisted
    exact hanalysed.compatible hobject hlisted
      (hanalysed.extended_of_mem htype hparent hobject hlisted) htype habove hfield hinherited hname

/-- Two interfaces that declare anew what they inherit, robots with another type and birds without the
argument, and a parrot that is a bird. -/
def Registry.aviary : Registry :=
  let text : TypeExpr := .named (.literal "String")
  let call := (FieldDeclaration.new "sound" text).addSource (.single (.new "tone" text))
  { types :=
      [{ TypeDeclaration.new .interface "Creature" with fields := [.new "name" text] },
        { TypeDeclaration.new .interface "Robot" with
          parent := some (.literal "Creature")
          fields := [.new "name" (.named (.literal "Int"))] },
        { TypeDeclaration.new .interface "Animal" with fields := [call] },
        { TypeDeclaration.new .interface "Bird" with
          parent := some (.literal "Animal")
          fields := [.new "sound" text] },
        { TypeDeclaration.new .object "Parrot" with
          interfaces := [.literal "Bird"]
          fields := [call] }]
    resolvers := [(.literal "Store", ⟨.query, .new "parrot" (.named (.literal "Parrot"))⟩)] }

theorem analyze_extends_aviary :
    ∃ model catalog flattened type above,
      analyze {} Registry.aviary [.literal "Store"] = .ok model ∧
      Catalog.ofRegistry Registry.aviary = .ok catalog ∧ catalog.allFields = .ok flattened ∧
      ("Bird", type) ∈ model.interfaces ∧ type.interfaces = ["Animal"] ∧
      type.implementers = ["Parrot"] ∧ ("Animal", above) ∈ model.interfaces ∧
      ∀ inherited ∈ above.fields, ∃ field,
        type.fields.filter (fun other => decide (other.name = inherited.name)) = [field] ∧
        ((¬Registry.aviary.Redeclares ["Bird"] inherited.name ∧ field = inherited) ∨
          ∃ seen, Registry.aviary.DeclaresNearest ["Bird"] seen ∧
            field.Renders catalog flattened seen) ∧
        field.Compatible inherited := by
  have hrun : (analyze {} Registry.aviary [.literal "Store"]).toOption.any (fun model =>
      (Table.get? model.interfaces "Bird").any fun type =>
        decide (type.interfaces = ["Animal"] ∧ type.implementers = ["Parrot"])) = true := by
    decide +kernel
  obtain ⟨model, hmodel, hfacts⟩ := exists_ok_of_any hrun
  simp only [Option.any_eq_true, decide_eq_true_eq] at hfacts
  obtain ⟨type, htype, hinterfaces, himplementers⟩ := hfacts
  have hmem := Table.mem_of_get? htype
  have hparent : "Animal" ∈ type.interfaces := by
    rw [hinterfaces]
    exact List.mem_cons_self
  have himplemented : type.implementers ≠ [] := by
    rw [himplementers]
    exact List.cons_ne_nil _ _
  obtain ⟨catalog, flattened, hcatalog, hflattened, hall⟩ := analyze_extends hmodel
  obtain ⟨above, between, habove, hbetween, hfields⟩ := hall "Bird" type hmem "Animal" hparent
  obtain rfl : between = [] := by
    rw [hinterfaces] at hbetween
    cases between with
    | nil => rfl
    | cons => simp at hbetween
  refine ⟨model, catalog, flattened, type, above, hmodel, hcatalog, hflattened, hmem, hinterfaces,
    himplementers, habove, fun inherited hinherited => ?_⟩
  obtain ⟨field, hfilter, hkept, hcompatible⟩ := hfields inherited hinherited
  exact ⟨field, hfilter, hkept, hcompatible himplemented⟩

/-- An interface may diverge from one that it extends, in type if no object implements it and in
arguments even then. -/
theorem aviary_diverges :
    ∃ model, analyze {} Registry.aviary [.literal "Store"] = .ok model ∧
      model.Diverges "Robot" "Creature" ∧ model.Diverges "Bird" "Animal" := by
  have hrun : (analyze {} Registry.aviary [.literal "Store"]).toOption.any (fun model =>
      decide (model.Diverges "Robot" "Creature" ∧ model.Diverges "Bird" "Animal")) = true := by
    decide +kernel
  obtain ⟨model, hmodel, hdiverges⟩ := exists_ok_of_any hrun
  exact ⟨model, hmodel, of_decide_eq_true hdiverges⟩

end Schemata
