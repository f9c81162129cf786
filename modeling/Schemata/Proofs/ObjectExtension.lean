import Schemata.Proofs.InterfaceExtension
import Schemata.Proofs.Supply

namespace Schemata

/-- The field is declared for one of these types, and says what its declaration says. -/
def Registry.DeclaresAmong (registry : Registry) (names : List String) (field : ModelField) : Prop :=
  ∃ type ∈ registry.types, type.name ∈ names ∧
    ∃ declaration, registry.DeclaresField type declaration ∧
      field.Carries registry.elementNames ⟨type.name, declaration⟩

namespace Analysed

variable {options : AnalysisOptions} {classes : List TypeName} {catalog : Catalog}
  {model : SchemaModel}

/-- The ancestors of an object are objects of the model. -/
theorem exists_base (h : Analysed options classes catalog model) {name parent : String}
    {below above : List String} (hchain : catalog.IsLineage name (below ++ parent :: above))
    (hname : name ∈ Table.keys model.objects) :
    ∃ base, Table.get? model.objects parent = some base := by
  obtain ⟨entry, hentry, hkind⟩ := h.mem_keys_objects.mp hname
  obtain ⟨found, hfound, hsame⟩ := hchain.declared hentry parent
    (List.mem_append_right _ List.mem_cons_self)
  exact Table.exists_get?_of_mem_keys
    (h.mem_keys_objects.mpr ⟨found, hfound, hsame.trans hkind⟩)

/-- An object has the interfaces of its ancestors. -/
theorem inherited_interfaces (h : Analysed options classes catalog model) {name parent : String}
    {below above : List String} (hchain : catalog.IsLineage name (below ++ parent :: above))
    {object base : ObjectType} (hobject : (name, object) ∈ model.objects)
    (hbase : (parent, base) ∈ model.objects) : base.interfaces ⊆ object.interfaces := by
  obtain ⟨interfaces, _, hsettled, rfl, -⟩ := h.exists_object hobject
  obtain ⟨inherited, _, hinherited, rfl, -⟩ := h.exists_object hbase
  intro interface hinterface
  rw [Catalog.mem_interfacesOf hinherited.derived] at hinterface
  rw [Catalog.mem_interfacesOf hsettled.derived]
  exact hinterface.below hchain

/-- A field of an object is declared along its lineage, or else it is one that some interface of the
object requires. -/
theorem declared_or_required (h : Analysed options classes catalog model) {name : String}
    {chain : List String} (hchain : catalog.IsLineage name chain) {object : ObjectType}
    (hobject : (name, object) ∈ model.objects) {field : ModelField} (hfield : field ∈ object.fields) :
    (∃ seen, chain.findSome? (catalog.lastDeclared field.name) = some seen ∧
      PlainLinking.linkField catalog (catalog.finalFields options) name seen.owner
        seen.declaration = some field) ∨
    ∃ interface ∈ object.interfaces, ∃ type, Table.get? model.interfaces interface = some type ∧
      ∃ required ∈ type.fields, required.name = field.name := by
  obtain ⟨interfaces, own, hsettled, rfl, hfields, -⟩ := h.exists_object hobject
  obtain ⟨entry, hentry⟩ := hchain.exists_entry
  have hown := hsettled.flattened
  rw [Catalog.get?_flattened, hentry, Option.map_some, hchain.ancestry_eq] at hown
  obtain rfl := Option.some.inj hown
  have hkeyed := h.finalFields_wellKeyed hsettled.completed
  rw [hfields, PlainLinking.mem_linkFields_iff hsettled.completed hkeyed] at hfield
  obtain ⟨seen, hseen, hlinked⟩ := hfield
  rw [Requirement.get?_completed (Catalog.chainFields_wellKeyed chain), Requirement.candidate?,
    Option.or_eq_some_iff, Catalog.get?_chainFields] at hseen
  rcases hseen with hdeclared | ⟨-, hsupplied⟩
  · exact Or.inl ⟨seen, hdeclared, hlinked⟩
  · obtain ⟨interface, hrequired⟩ := Fulfilment.required_of_suppliedTo hsupplied
    obtain ⟨hinterface, fields, hget, hmem⟩ := Requirement.mem_requiredFields.mp hrequired
    obtain ⟨declared, hdeclared, hkind⟩ :=
      Catalog.interface_of_mem_interfacesOf hsettled.derived hinterface
    obtain ⟨type, set, htype, hset, hfinal, hall, hnone⟩ := h.exists_interface hdeclared hkind
    obtain rfl := Option.some.inj (hget.symm.trans hset)
    have hthere : seen ∈ PlainLinking.fieldsAt (catalog.finalFields options) interface := by
      rw [PlainLinking.fieldsAt_eq hfinal]
      exact Table.mem_values_iff.mpr ⟨_, hmem⟩
    obtain ⟨required, hlisted, his⟩ :=
      PlainLinking.exists_linked (fun _ _ => h.finalFields_wellKeyed) hnone hthere
    rw [← hall] at hlisted
    have hname := (Catalog.wellKeyed_of_flattened hget).named _ hmem
    exact Or.inr ⟨interface, hinterface, type, htype, required, hlisted, his.name.trans hname⟩

/-- A field along the lineage of an object is declared by an object. -/
theorem owner_of_declared (h : Analysed options classes catalog model) {name owner : String}
    {chain : List String} (hchain : catalog.IsLineage name chain)
    (hname : name ∈ Table.keys model.objects) {field : ModelField} {seen : SeenField}
    (hseen : chain.findSome? (catalog.lastDeclared field.name) = some seen)
    (hlinked : PlainLinking.linkField catalog (catalog.finalFields options) owner seen.owner
      seen.declaration = some field) : field.owner ∈ Table.keys model.objects := by
  obtain ⟨entry, hentry, hkind⟩ := h.mem_keys_objects.mp hname
  rw [← Catalog.get?_chainFields] at hseen
  obtain ⟨found, hfound, hsame⟩ := hchain.declared hentry _ (Catalog.owner_mem_chain hseen)
  obtain ⟨_, -, rfl⟩ := Option.map_eq_some_iff.mp hlinked
  exact h.mem_keys_objects.mpr ⟨found, hfound, hsame.trans hkind⟩

/-- A field that an interface requires of an object has one type there and in each object below. -/
theorem exists_required_field (h : Analysed options classes catalog model) {name parent : String}
    {object base : ObjectType} (hobject : (name, object) ∈ model.objects)
    (hbase : (parent, base) ∈ model.objects) (hinterfaces : base.interfaces ⊆ object.interfaces)
    {interface : String} (hinterface : interface ∈ base.interfaces) {type : InterfaceType}
    (htype : Table.get? model.interfaces interface = some type) {required : ModelField}
    (hrequired : required ∈ type.fields) {inherited : ModelField}
    (hinherited : inherited ∈ base.fields) (hname : required.name = inherited.name) :
    ∃ field ∈ object.fields, field.name = inherited.name ∧ field.type = inherited.type := by
  have habove := h.field_implements hbase hinterface htype hrequired hinherited hname.symm
  obtain ⟨found, hfound, hconforms⟩ := h.conforms hobject (hinterfaces hinterface)
  obtain rfl := Option.some.inj (htype.symm.trans hfound)
  obtain ⟨field, honly, hbelow⟩ := hconforms required hrequired
  have hfield : field ∈ object.fields.filter fun other => decide (other.name = required.name) :=
    honly ▸ List.mem_singleton_self field
  obtain ⟨hmem, hsame⟩ := List.mem_filter.mp hfield
  exact ⟨field, hmem, (of_decide_eq_true hsame).trans hname, hbelow.type.trans habove.type.symm⟩

/-- Each field of an object is one of the objects below it, of the same type unless it is declared anew
on the way. Declaring it anew changes no type that an interface of the object above fixes. -/
theorem exists_inherited_field (h : Analysed options classes catalog model) {name parent : String}
    {below above : List String} (hchain : catalog.IsLineage name (below ++ parent :: above))
    {object base : ObjectType} (hobject : (name, object) ∈ model.objects)
    (hbase : (parent, base) ∈ model.objects) {inherited : ModelField}
    (hinherited : inherited ∈ base.fields) :
    ∃ field ∈ object.fields, field.name = inherited.name ∧
      (field.type = inherited.type ∨ ∃ anew, field.Carries catalog.elements anew ∧
        below.findSome? (catalog.lastDeclared inherited.name) = some anew) ∧
      (inherited.owner ∉ Table.keys model.objects → field.type = inherited.type) := by
  have hname := Table.mem_keys_of_mem hobject
  rcases h.declared_or_required hchain.suffix hbase hinherited with
    ⟨seen, hseen, hlinked⟩ | ⟨interface, hinterface, type, htype, required, hrequired, hsame⟩
  · have howner := h.owner_of_declared hchain.suffix (Table.mem_keys_of_mem hbase) hseen hlinked
    obtain ⟨entry, hentry, hkind⟩ := h.mem_keys_objects.mp hname
    obtain ⟨_, _, -, -, hfields, -⟩ := h.exists_object hobject
    obtain ⟨field, hfield, hsame, hkept⟩ :=
      h.exists_passed_on hchain hentry (by rw [hkind]; rfl) hseen hlinked
    rw [← hfields] at hfield
    refine ⟨field, hfield, hsame, ?_, fun hforeign => absurd howner hforeign⟩
    rcases hkept with ⟨-, rfl⟩ | ⟨anew, hanew, hrenders⟩
    · exact Or.inl rfl
    · exact Or.inr ⟨anew, hrenders.carries, hanew⟩
  · obtain ⟨field, hfield, hsame, htypes⟩ := h.exists_required_field hobject hbase
      (h.inherited_interfaces hchain hobject hbase) hinterface htype hrequired hinherited hsame
    exact ⟨field, hfield, hsame, Or.inl htypes, fun _ => htypes⟩

theorem only_field (h : Analysed options classes catalog model) {name named : String}
    {object : ObjectType} (hobject : (name, object) ∈ model.objects) {field : ModelField}
    (hfield : field ∈ object.fields) (hnamed : field.name = named) :
    object.fields.filter (fun other => decide (other.name = named)) = [field] := by
  obtain ⟨_, _, -, -, hfields, hnone⟩ := h.exists_object hobject
  have hnodup := h.fieldNames_nodup hnone
  rw [← hfields] at hnodup
  rw [← hnamed]
  exact filter_name_eq_singleton hnodup hfield

end Analysed

/-- A declaration found along a chain is one of the registry. -/
theorem Registry.declaresAmong_of_lastDeclared {registry : Registry} {names : List String}
    {name : String} {seen : SeenField} {field : ModelField}
    (h : names.findSome? (registry.settledCatalog.lastDeclared name) = some seen)
    (hcarries : field.Carries registry.elementNames seen) : registry.DeclaresAmong names field := by
  obtain ⟨below, hbelow, hdeclared⟩ := List.exists_of_findSome?_eq_some h
  obtain ⟨howner, -, entry, hentry, hmem⟩ := Catalog.declared_of_lastDeclared hdeclared
  obtain ⟨type, htype, rfl, rfl⟩ := exists_of_get?_settledCatalog hentry
  refine ⟨type, htype, hbelow, seen.declaration, mem_settledEntry_iff.mp hmem, ?_⟩
  rw [← howner]
  exact hcarries

/-- An object can stand for each of its ancestors: it has their interfaces, and exactly one field for
each of theirs. That field is of the same type, unless it is declared anew below the ancestor, and
even then if the ancestor has the field from an interface alone. -/
theorem analyze_substitutable {options : AnalysisOptions} {registry : Registry}
    {classes : List TypeName} {model : SchemaModel}
    (h : analyze options registry classes = .ok model) :
    ∃ catalog, Catalog.ofRegistry registry = .ok catalog ∧
      ∀ name object, (name, object) ∈ model.objects →
        ∃ ancestors, catalog.lineage name = .ok (name :: ancestors) ∧
          ∀ between parent above, ancestors = between ++ parent :: above →
            ∃ base, Table.get? model.objects parent = some base ∧
              base.interfaces ⊆ object.interfaces ∧
              ∀ inherited ∈ base.fields, ∃ field,
                object.fields.filter (fun other => decide (other.name = inherited.name)) = [field] ∧
                (field.type = inherited.type ∨ registry.DeclaresAmong (name :: between) field) ∧
                (inherited.owner ∉ Table.keys model.objects → field.type = inherited.type) := by
  obtain ⟨catalog, hcatalog, hanalysed⟩ := analysed_of_analyze h
  obtain ⟨-, hsettled⟩ := Catalog.ofRegistry_eq_ok_iff.mp hcatalog
  refine ⟨catalog, hcatalog, fun name object hobject => ?_⟩
  have hname := Table.mem_keys_of_mem hobject
  obtain ⟨entry, hentry, -⟩ := hanalysed.mem_keys_objects.mp hname
  obtain ⟨chain, hchain⟩ := hanalysed.lineages name (Table.mem_keys_of_get? hentry)
  obtain ⟨ancestors, rfl⟩ := hchain.exists_cons
  refine ⟨ancestors, Catalog.lineage_eq_ok_iff.mpr hchain, ?_⟩
  rintro between parent above rfl
  have hbelow : catalog.IsLineage name ((name :: between) ++ parent :: above) := hchain
  obtain ⟨base, hfound⟩ := hanalysed.exists_base hbelow hname
  have hbase := Table.mem_of_get? hfound
  refine ⟨base, hfound, hanalysed.inherited_interfaces hbelow hobject hbase, ?_⟩
  intro inherited hinherited
  obtain ⟨field, hfield, hsame, hkept, hforeign⟩ :=
    hanalysed.exists_inherited_field hbelow hobject hbase hinherited
  refine ⟨field, hanalysed.only_field hobject hfield hsame, hkept.imp_right ?_, hforeign⟩
  rintro ⟨anew, hcarries, hanew⟩
  rw [hsettled] at hcarries hanew
  exact Registry.declaresAmong_of_lastDeclared hanew hcarries

def Registry.cattery : Registry :=
  let text : TypeExpr := .named (.literal "String")
  let sound := (FieldDeclaration.new "sound" text).addSource (.set (.literal "Volume"))
  { nursery with
    types := { TypeDeclaration.new .interface "Vocal" with fields := [sound] } :: nursery.types
    implementations := [(.literal "Kitten", .literal "Vocal")] }

theorem analyze_substitutable_cattery :
    ∃ model catalog object base inherited field,
      analyze {} Registry.cattery [.literal "Store"] = .ok model ∧
      Catalog.ofRegistry Registry.cattery = .ok catalog ∧
      catalog.lineage "Kitten" = .ok ["Kitten", "Cat"] ∧
      ("Kitten", object) ∈ model.objects ∧ Table.get? model.objects "Cat" = some base ∧
      base.interfaces ⊆ object.interfaces ∧
      inherited ∈ base.fields ∧ inherited.name = "sound" ∧ inherited.owner = "Animal" ∧
      object.fields.filter (fun other => decide (other.name = "sound")) = [field] ∧
      field.owner = "Vocal" ∧ field.type = inherited.type := by
  have hrun : (analyze {} Registry.cattery [.literal "Store"]).toOption.any (fun model =>
      model.objects.any fun object =>
        decide (object.1 = "Kitten" ∧
          (∀ field ∈ object.2.fields, field.name = "sound" → field.owner = "Vocal") ∧
          ∀ base ∈ Table.get? model.objects "Cat", ∃ inherited ∈ base.fields,
            inherited.name = "sound" ∧ inherited.owner = "Animal" ∧
              inherited.owner ∉ Table.keys model.objects)) = true := by
    decide +kernel
  have hchain : (Catalog.ofRegistry Registry.cattery).toOption.any (fun catalog =>
      (catalog.lineage "Kitten").toOption.any fun chain => decide (chain = ["Kitten", "Cat"])) =
        true := by
    decide +kernel
  obtain ⟨model, hmodel, hfacts⟩ := exists_ok_of_any hrun
  simp only [List.any_eq_true, decide_eq_true_eq] at hfacts
  obtain ⟨⟨name, object⟩, hobject, rfl, hvocal, hcats⟩ := hfacts
  obtain ⟨found, hfound, hfacts⟩ := exists_ok_of_any hchain
  obtain ⟨chain, hlineage, hchain⟩ := exists_ok_of_any hfacts
  obtain rfl := of_decide_eq_true hchain
  obtain ⟨catalog, hcatalog, hall⟩ := analyze_substitutable hmodel
  obtain rfl := Except.ok.inj (hfound.symm.trans hcatalog)
  obtain ⟨ancestors, hancestors, hbelow⟩ := hall "Kitten" object hobject
  obtain rfl : ["Cat"] = ancestors :=
    (List.cons.inj (Except.ok.inj (hlineage.symm.trans hancestors))).2
  obtain ⟨base, hbase, hinterfaces, hfields⟩ := hbelow [] "Cat" [] rfl
  obtain ⟨inherited, hinherited, hname, howner, hforeign⟩ := hcats base hbase
  obtain ⟨field, honly, -, htype⟩ := hfields inherited hinherited
  rw [hname] at honly
  have hfield : field ∈ object.fields.filter fun other => decide (other.name = "sound") :=
    honly ▸ List.mem_singleton_self field
  obtain ⟨hmem, hsame⟩ := List.mem_filter.mp hfield
  exact ⟨model, found, object, base, inherited, field, hmodel, hfound, hlineage, hobject, hbase,
    hinterfaces, hinherited, hname, howner, honly, hvocal field hmem (of_decide_eq_true hsame),
    htype hforeign⟩

end Schemata
