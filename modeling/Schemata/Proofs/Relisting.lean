import Mathlib.Data.List.Forall2
import Mathlib.Data.List.Perm.Basic
import Schemata.Proofs.InterfaceRelation

namespace Schemata

/-- An entry with its interfaces listed in another order, if it is that of an object. -/
structure TypeEntry.Relists (entry relisted : TypeEntry) : Prop where
  rest : relisted = { entry with interfaces := relisted.interfaces }
  interfaces : relisted.interfaces.Perm entry.interfaces
  unlisted : entry.kind ≠ .object → relisted = entry

/-- A catalog whose objects list their interfaces in another order. -/
structure Catalog.Relists (catalog other : Catalog) : Prop where
  rest : other = { catalog with types := other.types }
  types : List.Forall₂ (fun entry relisted => relisted.1 = entry.1 ∧ entry.2.Relists relisted.2)
    catalog.types other.types

namespace TypeEntry.Relists

variable {entry relisted : TypeEntry} (h : entry.Relists relisted)

include h

theorem parent : relisted.parent = entry.parent := by
  rw [h.rest]

theorem kind : relisted.kind = entry.kind := by
  rw [h.rest]

theorem fields : relisted.fields = entry.fields := by
  rw [h.rest]

theorem symm : relisted.Relists entry := by
  refine ⟨?_, h.interfaces.symm, fun hkind => (h.unlisted (h.kind ▸ hkind)).symm⟩
  rw [h.rest]

end TypeEntry.Relists

def Catalog.reverseClauses (catalog : Catalog) : Catalog :=
  { catalog with
    types := catalog.types.map fun entry => (entry.1,
      if entry.2.kind = .object then
        { entry.2 with interfaces := entry.2.interfaces.reverse }
      else entry.2) }

theorem Catalog.relists_reverseClauses (catalog : Catalog) :
    catalog.Relists catalog.reverseClauses := by
  refine ⟨rfl, List.forall₂_map_right_iff.mpr (List.forall₂_same.mpr fun entry _ => ⟨rfl, ?_⟩)⟩
  dsimp only
  split
  next hobject => exact ⟨rfl, List.reverse_perm _, fun hother => absurd hobject hother⟩
  next => exact ⟨rfl, List.Perm.refl _, fun _ => rfl⟩

namespace Catalog.Relists

variable {catalog other : Catalog} (h : catalog.Relists other)

include h

theorem symm : other.Relists catalog := by
  refine ⟨?_, h.types.flip.imp fun _ _ hentry => ⟨hentry.1.symm, hentry.2.symm⟩⟩
  rw [h.rest]

theorem keys : Table.keys other.types = Table.keys catalog.types :=
  Table.keys_forall₂ h.types

theorem get? {name : String} {entry : TypeEntry} (hentry : catalog.get? name = some entry) :
    ∃ relisted, other.get? name = some relisted ∧ entry.Relists relisted :=
  Table.get?_forall₂ h.types hentry

theorem get?_none {name : String} (hnone : catalog.get? name = none) : other.get? name = none := by
  rw [Catalog.get?, Table.get?_eq_none_iff] at hnone ⊢
  rwa [h.keys]

theorem elements : other.elements = catalog.elements := by
  rw [h.rest]

theorem kindOf : other.kindOf = catalog.kindOf := by
  have hscalars : other.scalars = catalog.scalars := by rw [h.rest]
  have henums : other.enums = catalog.enums := by rw [h.rest]
  have hunions : other.unions = catalog.unions := by rw [h.rest]
  funext name
  rw [Catalog.kindOf, Catalog.kindOf, hscalars, henums, hunions]
  cases hentry : catalog.get? name with
  | none => rw [h.get?_none hentry]
  | some entry =>
    obtain ⟨relisted, hrelisted, hrelists⟩ := h.get? hentry
    rw [hrelisted]
    dsimp only
    rw [hrelists.kind]

theorem keys_typesOfKind (kind : TypeKind) :
    Table.keys (other.typesOfKind kind) = Table.keys (catalog.typesOfKind kind) := by
  refine Table.keys_filter_forall₂ h.types fun entry relisted hentry => ?_
  rw [hentry.kind]

theorem isLineage {name : String} {chain : List String} (hchain : catalog.IsLineage name chain) :
    other.IsLineage name chain := by
  induction hchain with
  | root found top =>
    obtain ⟨_, hrelisted, hrelists⟩ := h.get? found
    exact .root hrelisted (hrelists.parent.trans top)
  | extend found link parentFound kinds _ ih =>
    obtain ⟨_, hrelisted, hrelists⟩ := h.get? found
    obtain ⟨_, hparent, hparents⟩ := h.get? parentFound
    exact .extend hrelisted (hrelists.parent.trans link) hparent
      (hparents.kind.trans (kinds.trans hrelists.kind.symm)) ih

theorem chainFields : other.chainFields = catalog.chainFields := by
  funext chain
  induction chain with
  | nil => rfl
  | cons type ancestors ih =>
    rw [Catalog.chainFields, Catalog.chainFields, ih]
    cases hentry : catalog.get? type with
    | none => rw [h.get?_none hentry]
    | some entry =>
      obtain ⟨relisted, hrelisted, hrelists⟩ := h.get? hentry
      rw [hrelisted]
      dsimp only
      rw [hrelists.fields]

theorem signatureOf : Requirement.signatureOf other = Requirement.signatureOf catalog := by
  funext field
  rw [Requirement.signatureOf, Requirement.signatureOf, h.elements]

open Requirement in
theorem argumentTypes (effective : Table FieldSet) :
    Requirement.argumentTypes other effective = Requirement.argumentTypes catalog effective := by
  have hsource : sourceTypes other effective = sourceTypes catalog effective := by
    funext source
    cases source with
    | single argument => rw [sourceTypes, sourceTypes, h.signatureOf]
    | set reference => rw [sourceTypes, sourceTypes, h.signatureOf, h.kindOf, h.elements]
  funext field
  rw [Requirement.argumentTypes, Requirement.argumentTypes, hsource]

theorem fulfils_iff {effective : Table FieldSet} {candidate required : FieldDeclaration} :
    Requirement.Fulfils other effective candidate required ↔
      Requirement.Fulfils catalog effective candidate required := by
  constructor
  · rintro ⟨htype, harguments⟩
    rw [h.signatureOf] at htype
    rw [h.argumentTypes] at harguments
    exact ⟨htype, harguments⟩
  · rintro ⟨htype, harguments⟩
    rw [← h.signatureOf] at htype
    rw [← h.argumentTypes] at harguments
    exact ⟨htype, harguments⟩

theorem implementsClauses (chain : List String) :
    (other.implementsClauses chain).Perm (catalog.implementsClauses chain) := by
  refine List.Perm.flatMap_left chain fun type _ => ?_
  cases hentry : catalog.get? type with
  | none => rw [h.get?_none hentry]
  | some entry =>
    obtain ⟨relisted, hrelisted, hrelists⟩ := h.get? hentry
    rw [hrelisted]
    exact hrelists.interfaces.map _

theorem derives {object name : String} (hderives : catalog.Derives object name) :
    other.Derives object name := by
  obtain ⟨chain, hchain, type, htype, entry, hentry, listed, hlisted, ancestors, hancestors,
    hname⟩ := hderives
  obtain ⟨relisted, hrelisted, hrelists⟩ := h.get? hentry
  exact ⟨chain, h.isLineage hchain, type, htype, relisted, hrelisted, listed,
    hrelists.interfaces.mem_iff.mpr hlisted, ancestors, h.isLineage hancestors, hname⟩

/-- The interfaces of an object come in another order. -/
theorem interfacesOf_ok {object : String} {interfaces : List String}
    (hi : catalog.interfacesOf object = .ok interfaces) :
    ∃ relisted, other.interfacesOf object = .ok relisted ∧ relisted.Perm interfaces := by
  obtain ⟨chain, hchain, hall, -⟩ := interfacesOf_eq_ok_iff.mp hi
  have hok : other.interfacesOf object = .ok (other.derivedInterfaces chain) := by
    refine interfacesOf_eq_ok_iff.mpr ⟨chain, h.isLineage hchain, fun clause hclause => ?_, rfl⟩
    obtain ⟨names, hnames⟩ := hall clause ((h.implementsClauses chain).mem_iff.mp hclause)
    obtain ⟨⟨entry, hentry, hkind⟩, hlineage⟩ := implementedBy_eq_ok_iff.mp hnames
    obtain ⟨relisted, hrelisted, hrelists⟩ := h.get? hentry
    exact ⟨names, implementedBy_eq_ok_iff.mpr
      ⟨⟨relisted, hrelisted, hrelists.kind.trans hkind⟩, h.isLineage hlineage⟩⟩
  refine ⟨_, hok, (List.perm_ext_iff_of_nodup (interfacesOf_nodup hok) (interfacesOf_nodup hi)).mpr
    fun name => ?_⟩
  rw [mem_interfacesOf hok, mem_interfacesOf hi]
  exact ⟨h.symm.derives, h.derives⟩

section

variable (hlineages : ∀ name ∈ Table.keys catalog.types, ∃ chain, catalog.IsLineage name chain)

include hlineages

theorem lineages : ∀ name ∈ Table.keys other.types, ∃ chain, other.IsLineage name chain := by
  intro name hname
  obtain ⟨chain, hchain⟩ := hlineages name (h.keys ▸ hname)
  exact ⟨chain, h.isLineage hchain⟩

theorem lineage {name : String} (hname : name ∈ Table.keys catalog.types) :
    other.lineage name = catalog.lineage name := by
  obtain ⟨chain, hchain⟩ := hlineages name hname
  rw [lineage_eq_ok_iff.mpr hchain, lineage_eq_ok_iff.mpr (h.isLineage hchain)]

theorem flattened : other.flattened = catalog.flattened := by
  have hfields (relisted : Catalog) : relisted.flattened =
      (Table.keys relisted.types).map fun name =>
        (name, relisted.chainFields (relisted.ancestry name)) := by
    rw [Table.keys, List.map_map]
    rfl
  rw [hfields, hfields, h.keys, h.chainFields]
  refine List.map_congr_left fun name hname => ?_
  rw [Catalog.ancestry, Catalog.ancestry, h.lineage hlineages hname]

theorem implementedBy : other.implementedBy = catalog.implementedBy := by
  funext type interface
  rw [Catalog.implementedBy, Catalog.implementedBy]
  cases hentry : catalog.get? interface with
  | none => rw [h.get?_none hentry]
  | some entry =>
    obtain ⟨relisted, hrelisted, hrelists⟩ := h.get? hentry
    rw [hrelisted]
    dsimp only
    rw [hrelists.kind, h.lineage hlineages (Table.mem_keys_of_get? hentry)]

/-- So do the problems with its clauses. -/
theorem interfacesOf_error {object : String} (hobject : object ∈ Table.keys catalog.types)
    {found : List Problem} (hfound : catalog.interfacesOf object = .error found) :
    ∃ relisted, other.interfacesOf object = .error relisted ∧ relisted.Perm found := by
  obtain ⟨chain, hchain⟩ := hlineages object hobject
  have hperm : (other.clauseProblems chain).Perm (catalog.clauseProblems chain) := by
    rw [clauseProblems, clauseProblems, h.implementedBy hlineages]
    exact (h.implementsClauses chain).filterMap _
  rw [interfacesOf_of_isLineage hchain] at hfound
  split at hfound
  next => cases hfound
  next hne =>
    cases hfound
    refine ⟨_, ?_, hperm⟩
    rw [interfacesOf_of_isLineage (h.isLineage hchain), if_neg]
    intro hnil
    rw [hnil] at hperm
    exact hne hperm.nil_eq.symm

end

/-- All types have the same fields. -/
theorem allFields (hn : (Table.keys catalog.types).Nodup) {fields : Table FieldSet}
    (hfields : catalog.allFields = .ok fields) : other.allFields = .ok fields := by
  have hn' : (Table.keys other.types).Nodup := h.keys ▸ hn
  obtain ⟨hlineages, rfl⟩ := (allFields_eq_ok_iff hn).mp hfields
  exact (allFields_eq_ok_iff hn').mpr ⟨h.lineages hlineages, (h.flattened hlineages).symm⟩

end Catalog.Relists

end Schemata
