import Mathlib.Data.List.Pairwise
import Schemata.GraphQL.TypeGraph
import Schemata.Proofs.BuiltCatalog
import Schemata.Proofs.Representation
import Schemata.Proofs.ShapedLists

namespace Schemata

/-- What a field of type `expected` returns where every record is made as `host`: such records at
the type `name`, or null, in the lists that are asked for. -/
inductive Output.MadeAs (host : Element) (name : String) : Signature → Output → Prop
  | null {expected : Signature} : MadeAs host name expected .null
  | record {record : Record} {tag : TypeName} (tagged : record.tag = some tag)
      (settled : tag.settled = .element host) : MadeAs host name (.named name) (.record record)
  | nonNull {inner : Signature} {output : Output} (within : MadeAs host name inner output) :
      MadeAs host name (.nonNull inner) output
  | list {item : Signature} {items : List Output}
      (each : ∀ output ∈ items, MadeAs host name item output) :
      MadeAs host name (.list item) (.list items)

namespace GraphQL.Shaping

variable {shaping : Shaping} {path name : String} {host : Element}

theorem fits_null (expected : Signature) : shaping.Fits path expected .null := by
  induction expected with
  | named name => exact fits_named_iff.mpr ⟨nofun, nofun, nofun, nofun⟩
  | nonNull inner ih => exact fits_nonNull_iff.mpr ih
  | list item ih => exact fits_list_iff.mpr (Or.inl rfl)

variable (hkind : shaping.types.kindOf name = some .object)

include hkind

theorem admits_object_iff {record : Record} :
    shaping.Admits path (.named name) (.record record) ↔
      ∀ tag, record.tag = some tag → tag.resolve shaping.types.elements = name := by
  rw [admits_record_iff, hkind]
  simp

/-- Records are accepted at an object type just when the element they are made as stands for it. -/
theorem forall_madeAs_iff :
    (∀ path expected output, Output.MadeAs host name expected output →
        ∃ result, shaping.shape path expected output = .ok result) ↔
      shaping.types.elements.nameOf host = name := by
  simp only [exists_shape_iff]
  constructor
  · intro h
    let made : Record := ⟨some (.element host), []⟩
    have hmade : Output.MadeAs host name (.named name) (.record made) := .record rfl rfl
    have hadmits := fits_named_iff.mp (h "" _ _ hmade)
    exact (admits_object_iff hkind).mp hadmits _ rfl
  · intro h path expected output hmade
    induction hmade with
    | null => exact fits_null _
    | record tagged settled =>
      refine fits_named_iff.mpr ((admits_object_iff hkind).mpr fun tag htag => ?_)
      obtain rfl := Option.some.inj (tagged.symm.trans htag)
      exact (TypeName.resolve_of_settled settled).trans h
    | nonNull _ ih => exact fits_nonNull_iff.mpr ih
    | list _ ih => exact fits_list_iff.mpr (Or.inr ⟨_, rfl, ih⟩)

end GraphQL.Shaping

namespace Registry

variable {registry : Registry} {type : TypeDeclaration} {host : Element}

/-- Where names are distinct, an element stands for no type but the last that is declared for it. -/
theorem nameOf_eq_iff (hn : (registry.types.map TypeDeclaration.name).Nodup)
    (htype : type ∈ registry.types) (helement : type.element = some host) :
    registry.nameOf host = type.name ↔ (registry.madeFor host).getLast? = some type := by
  obtain ⟨last, hmem, -, hlast, hname⟩ := exists_nameOf htype helement
  rw [hname, hlast, Option.some_inj]
  exact ⟨fun h => List.inj_on_of_nodup_map hn hmem htype h, congrArg TypeDeclaration.name⟩

theorem forall_resolve_iff (hn : (registry.types.map TypeDeclaration.name).Nodup)
    (htype : type ∈ registry.types) (helement : type.element = some host) :
    (∀ name : TypeName, name.settled = .element host →
        name.resolve registry.elementNames = type.name) ↔
      (registry.madeFor host).getLast? = some type := by
  rw [← nameOf_eq_iff hn htype helement]
  constructor
  · intro hall
    rw [← hall (.element host) rfl, resolve_elementNames rfl]
  · intro hlast name hname
    rw [resolve_elementNames hname, hlast]

theorem nameOf_injOn (hn : (registry.types.map TypeDeclaration.name).Nodup)
    {other : TypeDeclaration} {another : Element} (htype : type ∈ registry.types)
    (helement : type.element = some host) (hother : other ∈ registry.types)
    (hanother : other.element = some another)
    (h : registry.nameOf host = registry.nameOf another) : host = another := by
  obtain ⟨last, hmem, hmade, -, hname⟩ := exists_nameOf htype helement
  obtain ⟨latest, hmem', hmade', -, hname'⟩ := exists_nameOf hother hanother
  have hsame : last = latest := List.inj_on_of_nodup_map hn hmem hmem' (by rw [← hname, h, hname'])
  rw [hsame, hmade'] at hmade
  exact (Option.some.inj hmade).symm

/-- Each type is the last declared for its element if and only if it is the only one. -/
theorem forall_last_iff (hn : registry.types.Nodup) :
    (∀ type ∈ registry.types, ∀ host, type.element = some host →
        (registry.madeFor host).getLast? = some type) ↔
      (registry.types.filterMap TypeDeclaration.element).Nodup := by
  rw [List.Nodup, List.pairwise_filterMap]
  constructor
  · intro h
    refine List.Pairwise.imp_of_mem (fun {type other} htype hother hne host hhost another
      hanother hsame => hne ?_) hn
    obtain rfl : host = another := hsame
    exact Option.some.inj ((h type htype host hhost).symm.trans (h other hother host hanother))
  · intro h type htype host hhost
    have hsymm : Std.Symm fun type other : TypeDeclaration => ∀ host, type.element = some host →
        ∀ another, other.element = some another → host ≠ another :=
      ⟨fun _ _ h host hhost another hanother => (h another hanother host hhost).symm⟩
    obtain ⟨last, hmem, hmade, hlast, -⟩ := exists_nameOf htype hhost
    rw [hlast, Option.some_inj]
    by_contra hne
    exact h.forall hmem htype hne host hmade host hhost rfl

end Registry

theorem Analysed.kindOf_object {options : AnalysisOptions} {registry : Registry}
    {classes : List TypeName} {catalog : Catalog} {model : SchemaModel}
    (h : Analysed options classes catalog model)
    (hcatalog : Catalog.ofRegistry registry = .ok catalog) {type : TypeDeclaration}
    (htype : type ∈ registry.types) (hkind : type.kind = .object) :
    model.kindOf type.name = some .object := by
  obtain ⟨haccepted, rfl⟩ := Catalog.ofRegistry_eq_ok_iff.mp hcatalog
  have hlisted : type.name ∈ Table.keys model.objects :=
    h.mem_keys_objects.mpr ⟨_, haccepted.get?_settledCatalog htype, hkind⟩
  rw [TypeSystem.kindOf, if_pos (Table.contains_iff.mpr hlisted)]

open GraphQL

/-- An element stands for a type declared for it, in references and in the tags of records, if and
only if that type is the last that is declared for it; and for all of them if and only if no
element has two. Different elements never stand for the same type. -/
theorem Catalog.identifies_of_ofRegistry {registry : Registry} {catalog : Catalog}
    (h : Catalog.ofRegistry registry = .ok catalog) :
    (∀ type ∈ registry.types, ∀ host, type.element = some host →
      ((∀ name : TypeName, name.settled = .element host →
          name.resolve catalog.elements = type.name) ↔
        (registry.madeFor host).getLast? = some type) ∧
      (type.kind = .object → ∀ options classes model, analyze options registry classes = .ok model →
        ((∀ path expected output, Output.MadeAs host type.name expected output → ∃ result,
            (Shaping.ofTypes model.toTypeSystem).shape path expected output = .ok result) ↔
          (registry.madeFor host).getLast? = some type))) ∧
    ((∀ type ∈ registry.types, ∀ host, type.element = some host → ∀ name : TypeName,
        name.settled = .element host → name.resolve catalog.elements = type.name) ↔
      (registry.types.filterMap TypeDeclaration.element).Nodup) ∧
    ∀ type ∈ registry.types, ∀ host, type.element = some host →
      ∀ other ∈ registry.types, ∀ another, other.element = some another → host ≠ another →
        ∀ first second : TypeName, first.settled = .element host →
          second.settled = .element another →
            first.resolve catalog.elements ≠ second.resolve catalog.elements := by
  obtain ⟨haccepted, hsettled⟩ := ofRegistry_eq_ok_iff.mp h
  have helements : catalog.elements = registry.elementNames := by
    rw [hsettled]
    rfl
  have hn := haccepted.types_nodup
  refine ⟨fun type htype host hhost => ⟨?_, ?_⟩, ?_, ?_⟩
  · rw [helements]
    exact Registry.forall_resolve_iff hn htype hhost
  · intro hkind options classes model hmodel
    obtain ⟨_, hcatalog, hanalysed⟩ := analysed_of_analyze hmodel
    obtain rfl := Except.ok.inj (h.symm.trans hcatalog)
    have hobject : (Shaping.ofTypes model.toTypeSystem).types.kindOf type.name = some .object :=
      hanalysed.kindOf_object h htype hkind
    rw [Shaping.forall_madeAs_iff hobject, ← Registry.nameOf_eq_iff hn htype hhost,
      ← Registry.nameOf_elementNames, ← helements, ← hanalysed.elements]
    rfl
  · rw [← Registry.forall_last_iff hn.of_map, helements]
    exact forall₂_congr fun type htype => forall₂_congr fun host hhost =>
      Registry.forall_resolve_iff hn htype hhost
  · intro type htype host hhost other hother another hanother hne first second hfirst hsecond
    rw [helements, Registry.resolve_elementNames hfirst, Registry.resolve_elementNames hsecond]
    exact fun hsame => hne (Registry.nameOf_injOn hn htype hhost hother hanother hsame)

def TypeDeclaration.hound : TypeDeclaration :=
  { TypeDeclaration.new .object "Hound" with
    element := some ⟨"pets::Dog"⟩
    fields := [.new "name" (.named (.literal "String"))] }

def Registry.hounds : Registry :=
  { types := [.hound]
    resolvers :=
      [(.literal "Store", .new .query "dog" (.named (.literal "Hound")) fun _ =>
        .ok (.record ⟨some (.element ⟨"pets::Dog"⟩), [("name", .scalar (.str "Rex"))]⟩))] }

theorem Catalog.identifies_hounds :
    ∃ catalog model, Catalog.ofRegistry Registry.hounds = .ok catalog ∧
      analyze {} Registry.hounds [.literal "Store"] = .ok model ∧
      (TypeName.deferred 0 (.element ⟨"pets::Dog"⟩)).resolve catalog.elements = "Hound" ∧
      ∃ result, (Shaping.ofTypes model.toTypeSystem).shape "Query.dogs" (.list (.named "Hound"))
        (.list [.record ⟨some (.element ⟨"pets::Dog"⟩), []⟩, .null]) = .ok result := by
  have hrun : (analyze {} Registry.hounds [.literal "Store"]).toOption.any
      (fun _ => true) = true := by
    decide +kernel
  obtain ⟨model, hmodel, -⟩ := exists_ok_of_any hrun
  obtain ⟨catalog, hcatalog, -⟩ := analysed_of_analyze hmodel
  have hlast : (Registry.hounds.madeFor ⟨"pets::Dog"⟩).getLast? = some .hound := rfl
  obtain ⟨hreferences, hrecords⟩ :=
    (Catalog.identifies_of_ofRegistry hcatalog).1 .hound List.mem_cons_self _ rfl
  have hmade : Output.MadeAs ⟨"pets::Dog"⟩ "Hound" (.list (.named "Hound"))
      (.list [.record ⟨some (.element ⟨"pets::Dog"⟩), []⟩, .null]) := by
    refine .list ?_
    simp only [List.forall_mem_cons]
    exact ⟨.record rfl rfl, .null, nofun⟩
  exact ⟨catalog, model, hcatalog, hmodel, hreferences.mpr hlast _ rfl,
    (hrecords rfl _ _ _ hmodel).mpr hlast _ _ _ hmade⟩

def Registry.houndInputs : Registry :=
  { Registry.hounds with
    types := [.hound, { TypeDeclaration.hound with name := "HoundInput", kind := .input }] }

/-- With two declarations for its element the hound is refused where a hound is asked for. -/
theorem execute_houndInputs :
    ∃ catalog graph, Catalog.ofRegistry Registry.houndInputs = .ok catalog ∧
      (.hound ∈ Registry.houndInputs.types ∧
        TypeDeclaration.hound.element = some ⟨"pets::Dog"⟩) ∧
      (TypeName.element ⟨"pets::Dog"⟩).resolve catalog.elements ≠ TypeDeclaration.hound.name ∧
      TypeGraph.ofRegistry {} Registry.houndInputs [.literal "Store"] = .ok graph ∧
      graph.execute ⟨.query, [], [.branch ⟨"dog", "dog", []⟩ [.leaf ⟨"name", "name", []⟩]]⟩ =
        .answered .null [⟨"Runtime object type \"HoundInput\" returned for field \"Query.dog\" " ++
          "is not a possible type of \"Hound\"", some "ABSTRACT_TYPE_UNRESOLVED"⟩] := by
  have hbuilt : (Catalog.ofRegistry Registry.houndInputs).toOption.any (fun catalog => decide
      ((TypeName.element ⟨"pets::Dog"⟩).resolve catalog.elements ≠
        TypeDeclaration.hound.name)) = true := by
    decide +kernel
  have hrun : (TypeGraph.ofRegistry {} Registry.houndInputs [.literal "Store"]).toOption.any
      (fun graph => decide (
        graph.execute ⟨.query, [], [.branch ⟨"dog", "dog", []⟩ [.leaf ⟨"name", "name", []⟩]]⟩ =
        .answered .null [⟨"Runtime object type \"HoundInput\" returned for field \"Query.dog\" " ++
          "is not a possible type of \"Hound\"", some "ABSTRACT_TYPE_UNRESOLVED"⟩])) = true := by
    decide +kernel
  obtain ⟨catalog, hcatalog, hname⟩ := exists_ok_of_any hbuilt
  obtain ⟨graph, hgraph, hanswer⟩ := exists_ok_of_any hrun
  exact ⟨catalog, graph, hcatalog, ⟨List.mem_cons_self, rfl⟩, of_decide_eq_true hname, hgraph,
    of_decide_eq_true hanswer⟩

end Schemata
