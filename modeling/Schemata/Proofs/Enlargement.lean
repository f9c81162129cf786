import Schemata.Proofs.Roots

namespace Schemata

/-- Whatever a name stands for in the catalog it stands for in the other one, too. -/
structure Catalog.Within (catalog other : Catalog) : Prop where
  elements : other.elements = catalog.elements
  types : ∀ name entry, catalog.get? name = some entry → other.get? name = some entry
  kinds : ∀ name kind, catalog.kindOf name = some kind → other.kindOf name = some kind

namespace Catalog.Within

variable {catalog other : Catalog} (h : catalog.Within other)

include h

theorem isLineage {name : String} {chain : List String} (hchain : catalog.IsLineage name chain) :
    other.IsLineage name chain := by
  induction hchain with
  | root found top => exact .root (h.types _ _ found) top
  | extend found link parentFound kinds _ ih =>
    exact .extend (h.types _ _ found) link (h.types _ _ parentFound) kinds ih

theorem ancestry {name : String} {chain : List String} (hchain : catalog.IsLineage name chain) :
    other.ancestry name = catalog.ancestry name := by
  rw [hchain.ancestry_eq, (h.isLineage hchain).ancestry_eq]

theorem chainFields {chain : List String}
    (hdeclared : ∀ type ∈ chain, ∃ entry, catalog.get? type = some entry) :
    other.chainFields chain = catalog.chainFields chain := by
  induction chain with
  | nil => rfl
  | cons type ancestors ih =>
    rw [List.forall_mem_cons] at hdeclared
    obtain ⟨⟨entry, hentry⟩, hrest⟩ := hdeclared
    rw [Catalog.chainFields, Catalog.chainFields, hentry, h.types _ _ hentry, ih hrest]

theorem flattened {name : String} {chain : List String} (hchain : catalog.IsLineage name chain) :
    Table.get? other.flattened name = Table.get? catalog.flattened name := by
  obtain ⟨entry, hentry⟩ := hchain.exists_entry
  have hdeclared (type : String) (htype : type ∈ chain) :
      ∃ found, catalog.get? type = some found := by
    obtain ⟨found, hfound, -⟩ := hchain.declared hentry type htype
    exact ⟨found, hfound⟩
  rw [get?_flattened, get?_flattened, hentry, h.types _ _ hentry, h.ancestry hchain,
    hchain.ancestry_eq, h.chainFields hdeclared]

theorem interfacesOf {object : String} {interfaces : List String}
    (hi : catalog.interfacesOf object = .ok interfaces) :
    other.interfacesOf object = .ok interfaces := by
  obtain ⟨chain, hchain, hall, rfl⟩ := interfacesOf_eq_ok_iff.mp hi
  obtain ⟨first, hfirst⟩ := hchain.exists_entry
  have hclauses : other.implementsClauses chain = catalog.implementsClauses chain := by
    refine List.flatMap_congr fun type htype => ?_
    obtain ⟨entry, hentry, -⟩ := hchain.declared hfirst type htype
    rw [hentry, h.types _ _ hentry]
  refine interfacesOf_eq_ok_iff.mpr ⟨chain, h.isLineage hchain, ?_, ?_⟩
  · intro clause hclause
    rw [hclauses] at hclause
    obtain ⟨names, hnames⟩ := hall clause hclause
    obtain ⟨⟨entry, hentry, hkind⟩, hlineage⟩ := implementedBy_eq_ok_iff.mp hnames
    exact ⟨names, implementedBy_eq_ok_iff.mpr
      ⟨⟨entry, h.types _ _ hentry, hkind⟩, h.isLineage hlineage⟩⟩
  · rw [derivedInterfaces, derivedInterfaces, hclauses]
    congr 1
    refine List.flatMap_congr fun clause hclause => ?_
    obtain ⟨names, hnames⟩ := hall clause hclause
    exact (h.ancestry (implementedBy_eq_ok_iff.mp hnames).2).symm

theorem signatureOf : Requirement.signatureOf other = Requirement.signatureOf catalog := by
  funext field
  rw [Requirement.signatureOf, Requirement.signatureOf, h.elements]

theorem admits {position : Position} {name : String} (hadmits : catalog.Admits position name) :
    other.Admits position name := by
  obtain ⟨kind, hkind, haccepts⟩ := hadmits
  exact ⟨kind, h.kinds _ _ hkind, haccepts⟩

theorem signature {owner field : String} {type : TypeExpr} {position : Position}
    {result : Signature} (hs : Linking.signature catalog owner field type position = .ok result) :
    Linking.signature other owner field type position = .ok result := by
  rw [Linking.signature_eq_ok_iff] at hs ⊢
  rw [h.elements]
  exact ⟨hs.1, h.admits hs.2⟩

theorem linkArgument {owner : String} {field : FieldDeclaration}
    (hfine : problemOf (Linking.linkArgument catalog owner field) = none) :
    Linking.linkArgument other owner field = Linking.linkArgument catalog owner field := by
  obtain ⟨argument, hargument⟩ := problemOf_eq_none_iff.mp hfine
  rw [hargument]
  rw [Linking.linkArgument_eq_ok_iff] at hargument ⊢
  rw [Linking.argumentOf, h.signatureOf]
  exact ⟨hargument.1, h.admits hargument.2⟩

section

variable {effective effective' : Table FieldSet}
  (he : ∀ name entry, catalog.get? name = some entry →
    Table.get? effective' name = Table.get? effective name)

include he

omit h in
theorem fieldsAt {name : String} {entry : TypeEntry} (hentry : catalog.get? name = some entry) :
    PlainLinking.fieldsAt effective' name = PlainLinking.fieldsAt effective name := by
  rw [PlainLinking.fieldsAt, PlainLinking.fieldsAt, he name entry hentry]

theorem arguments {name owner : String} {entry : TypeEntry} (hentry : catalog.get? name = some entry)
    (hfine : ∀ seen ∈ PlainLinking.fieldsAt effective name,
      problemOf (Linking.linkArgument catalog owner seen.declaration) = none) :
    ((PlainLinking.fieldsAt effective' name).filterMap fun seen =>
        (Linking.linkArgument other owner seen.declaration).toOption) =
      (PlainLinking.fieldsAt effective name).filterMap fun seen =>
        (Linking.linkArgument catalog owner seen.declaration).toOption := by
  rw [fieldsAt he hentry]
  refine List.filterMap_congr fun seen hseen => ?_
  rw [h.linkArgument (hfine seen hseen)]

theorem sourceArguments {owner field : String} {source : ArgumentSource}
    (hfine : PlainLinking.sourceProblems catalog effective owner field source = []) :
    PlainLinking.sourceArguments other effective' owner source =
      PlainLinking.sourceArguments catalog effective owner source := by
  cases source with
  | single argument =>
    rw [PlainLinking.sourceProblems, Option.toList_eq_nil_iff] at hfine
    rw [PlainLinking.sourceArguments, PlainLinking.sourceArguments, h.linkArgument hfine]
  | set reference =>
    simp only [PlainLinking.sourceProblems, PlainLinking.sourceArguments, h.elements] at hfine ⊢
    split at hfine
    next hset =>
      obtain ⟨entry, hentry, -⟩ := Catalog.kindOf_eq_declared hset
      rw [if_pos hset, if_pos (h.kinds _ _ hset)]
      refine h.arguments he hentry fun seen hseen => ?_
      rw [PlainLinking.setProblems, List.flatMap_eq_nil_iff] at hfine
      exact Option.toList_eq_nil_iff.mp (hfine seen hseen)
    next => cases hfine

theorem argumentTable {owner : String} {field : FieldDeclaration}
    (hfine : PlainLinking.argumentProblems catalog effective owner field = []) :
    PlainLinking.argumentTable other effective' owner field =
      PlainLinking.argumentTable catalog effective owner field := by
  rw [PlainLinking.argumentProblems, List.flatMap_eq_nil_iff] at hfine
  rw [PlainLinking.argumentTable, PlainLinking.argumentTable]
  apply List.foldl_ext
  intro found source hsource
  rw [h.sourceArguments he (hfine source hsource)]

/-- A field with which nothing is wrong is linked to the same in the larger catalog. -/
theorem linkField {owner declaredBy : String} {field : FieldDeclaration}
    (hfine : PlainLinking.fieldProblems catalog effective owner field = []) :
    PlainLinking.linkField other effective' owner declaredBy field =
      PlainLinking.linkField catalog effective owner declaredBy field := by
  rw [PlainLinking.fieldProblems, List.append_eq_nil_iff, Option.toList_eq_nil_iff,
    problemOf_eq_none_iff] at hfine
  obtain ⟨harguments, type, htype⟩ := hfine
  rw [PlainLinking.linkField, PlainLinking.linkField, htype, h.signature htype,
    h.argumentTable he harguments]

theorem linkFields {name : String} {entry : TypeEntry} (hentry : catalog.get? name = some entry)
    (hfine : PlainLinking.fieldsProblems catalog effective name = []) :
    PlainLinking.linkFields other effective' name = PlainLinking.linkFields catalog effective name := by
  rw [PlainLinking.fieldsProblems, List.flatMap_eq_nil_iff] at hfine
  rw [PlainLinking.linkFields, PlainLinking.linkFields, fieldsAt he hentry]
  refine List.filterMap_congr fun seen hseen => ?_
  exact h.linkField he (hfine seen hseen)

theorem suppliedTo {interfaces : List String}
    (hdeclared : ∀ interface ∈ interfaces, ∃ entry, catalog.get? interface = some entry)
    (inherit : Bool) (own : FieldSet) :
    Fulfilment.suppliedTo other effective' inherit interfaces own =
      Fulfilment.suppliedTo catalog effective inherit interfaces own := by
  have hrequired : Requirement.requiredFields effective' interfaces =
      Requirement.requiredFields effective interfaces := by
    refine List.flatMap_congr fun interface hinterface => ?_
    obtain ⟨entry, hentry⟩ := hdeclared interface hinterface
    rw [he interface entry hentry]
  have hoffer : Requirement.offer other = Requirement.offer catalog := by
    funext own supplied name required
    rw [Requirement.offer, Requirement.offer, h.signatureOf]
  rw [Fulfilment.suppliedTo, Fulfilment.suppliedTo, Requirement.suppliedFields,
    Requirement.suppliedFields, hrequired, hoffer]

end

section

variable {options : AnalysisOptions} {classes : List TypeName} {model model' : SchemaModel}
  (hmodel : Analysed options classes catalog model)
  (hmodel' : Analysed options classes other model')

include hmodel

theorem flattened_of_get? {name : String} {entry : TypeEntry}
    (hentry : catalog.get? name = some entry) :
    Table.get? other.flattened name = Table.get? catalog.flattened name := by
  obtain ⟨chain, hchain⟩ := hmodel.lineages name (Table.mem_keys_of_get? hentry)
  exact h.flattened hchain

include hmodel'

/-- Validation makes sure of the same in both catalogs. -/
theorem settled {object : String} {entry : TypeEntry} {interfaces : List String} {own : FieldSet}
    (hentry : catalog.get? object = some entry) (hkind : entry.kind = .object)
    (hsettled : Analysed.Settled options catalog object interfaces own) :
    Analysed.Settled options other object interfaces own := by
  have hown := (h.flattened_of_get? hmodel hentry).trans hsettled.flattened
  exact hmodel'.settled (h.types _ _ hentry) hkind (h.interfacesOf hsettled.derived) hown

theorem finalFields {name : String} {entry : TypeEntry} (hentry : catalog.get? name = some entry) :
    Table.get? (other.finalFields options) name = Table.get? (catalog.finalFields options) name := by
  have hflattened (type : String) (found : TypeEntry) (hfound : catalog.get? type = some found) :=
    h.flattened_of_get? hmodel hfound
  by_cases hkind : entry.kind = .object
  · obtain ⟨interfaces, own, hsettled⟩ := hmodel.exists_settled hentry hkind
    have hdeclared (interface : String) (hinterface : interface ∈ interfaces) :
        ∃ found, catalog.get? interface = some found := by
      obtain ⟨found, hfound, -⟩ :=
        Catalog.interface_of_mem_interfacesOf hsettled.derived hinterface
      exact ⟨found, hfound⟩
    rw [hsettled.completed, (h.settled hmodel hmodel' hentry hkind hsettled).completed,
      h.suppliedTo hflattened hdeclared]
  · rw [hmodel.finalFields_of_kind hentry hkind,
      hmodel'.finalFields_of_kind (h.types _ _ hentry) hkind, hflattened name entry hentry]

theorem relation_interfaces {name : String} {entry : TypeEntry}
    (hentry : catalog.get? name = some entry) (hkind : entry.kind = .object) :
    Table.get? (other.fulfilment options).relation.interfaces name =
      Table.get? (catalog.fulfilment options).relation.interfaces name := by
  obtain ⟨interfaces, own, hsettled⟩ := hmodel.exists_settled hentry hkind
  rw [hsettled.recorded, (h.settled hmodel hmodel' hentry hkind hsettled).recorded]

theorem relation_ancestors {name : String} {entry : TypeEntry}
    (hentry : catalog.get? name = some entry) (hkind : entry.kind = .interface) :
    Table.get? (other.fulfilment options).relation.ancestors name =
      Table.get? (catalog.fulfilment options).relation.ancestors name := by
  obtain ⟨chain, hchain⟩ := hmodel.lineages name (Table.mem_keys_of_get? hentry)
  obtain ⟨ancestors, rfl⟩ := hchain.exists_cons
  rw [hmodel.recorded_ancestors hentry hkind hchain,
    hmodel'.recorded_ancestors (h.types _ _ hentry) hkind (h.isLineage hchain)]

theorem objectType {name : String} {entry : TypeEntry} (hentry : catalog.get? name = some entry)
    (hkind : entry.kind = .object) :
    PlainLinking.objectType other (other.finalFields options) (other.fulfilment options).relation
        name entry =
      PlainLinking.objectType catalog (catalog.finalFields options)
        (catalog.fulfilment options).relation name entry := by
  have hfine := hmodel.fieldsProblems_eq_nil hentry (by rw [hkind]; rfl)
  rw [PlainLinking.objectType, PlainLinking.objectType,
    h.linkFields (fun _ _ => h.finalFields hmodel hmodel') hentry hfine,
    h.relation_interfaces hmodel hmodel' hentry hkind]

/-- An interface may get further implementers. -/
theorem interfaceType {name : String} {entry : TypeEntry}
    (hentry : catalog.get? name = some entry) (hkind : entry.kind = .interface) :
    PlainLinking.interfaceType other (other.finalFields options) (other.fulfilment options).relation
        name entry =
      { PlainLinking.interfaceType catalog (catalog.finalFields options)
          (catalog.fulfilment options).relation name entry with
        implementers :=
          (Table.get? (other.fulfilment options).relation.implementers name).getD [] } := by
  have hfine := hmodel.fieldsProblems_eq_nil hentry (by rw [hkind]; rfl)
  rw [PlainLinking.interfaceType, PlainLinking.interfaceType,
    h.linkFields (fun _ _ => h.finalFields hmodel hmodel') hentry hfine,
    h.relation_ancestors hmodel hmodel' hentry hkind]

theorem inputType {name : String} {entry : TypeEntry} (hentry : catalog.get? name = some entry)
    (hkind : entry.kind = .input) :
    PlainLinking.inputType other (other.finalFields options) name entry =
      PlainLinking.inputType catalog (catalog.finalFields options) name entry := by
  have hfine := hmodel.linkArgument_fine hentry (by rw [hkind]; rfl)
  rw [PlainLinking.inputType, PlainLinking.inputType,
    h.arguments (fun _ _ => h.finalFields hmodel hmodel') hentry hfine]

theorem setArguments {name : String} (hset : catalog.kindOf name = some (.declared .argumentSet)) :
    PlainLinking.setArguments other (other.finalFields options) name =
      PlainLinking.setArguments catalog (catalog.finalFields options) name := by
  obtain ⟨entry, hentry, hkind⟩ := Catalog.kindOf_eq_declared hset
  have hfine := hmodel.linkArgument_fine hentry (by rw [hkind]; rfl)
  exact h.arguments (fun _ _ => h.finalFields hmodel hmodel') hentry hfine

theorem draft_fields (hresolvers : other.resolvers = catalog.resolvers) (operation : Operation) :
    (PlainRoots.draft options other (other.finalFields options) classes).fields operation =
      (PlainRoots.draft options catalog (catalog.finalFields options) classes).fields operation := by
  have hmethods : PlainRoots.requestedMethods other classes =
      PlainRoots.requestedMethods catalog classes := by
    rw [PlainRoots.requestedMethods, PlainRoots.requestedMethods, hresolvers,
      Roots.requestedClasses, Roots.requestedClasses, h.elements]
  rw [hmodel.lists.fields, hmodel'.lists.fields, hmethods]
  refine List.filterMap_congr fun method hmethod => ?_
  have hsound := hmodel.lists.sound method (List.mem_of_mem_filter hmethod)
  exact h.linkField (fun _ _ => h.finalFields hmodel hmodel') hsound

/-- The roots are those of the smaller catalog if no resolver has been added. -/
theorem roots (hresolvers : other.resolvers = catalog.resolvers) :
    model'.query = model.query ∧ model'.mutation = model.mutation := by
  have hquery := h.draft_fields hmodel hmodel' hresolvers .query
  have hmutation := h.draft_fields hmodel hmodel' hresolvers .mutation
  simp only [RootDraft.fields] at hquery hmutation
  rw [hmodel.query, hmodel'.query, hmodel.mutation, hmodel'.mutation, hquery, hmutation]
  exact ⟨rfl, rfl⟩

end

end Catalog.Within

end Schemata
