import Mathlib.Data.List.Forall2
import Schemata.Proofs.Dispatch
import Schemata.Proofs.Documents

namespace Schemata

theorem Except.map_eq_ok_iff {ε α β : Type} {f : α → β} {result : Except ε α} {value : β} :
    result.map f = .ok value ↔ ∃ found, result = .ok found ∧ f found = value := by
  cases result <;> simp [Except.map]

theorem List.mapM_eq_ok_iff {ε α β : Type} {f : α → Except ε β} {items : List α}
    {values : List β} :
    items.mapM f = .ok values ↔
      List.Forall₂ (fun item value => f item = .ok value) items values := by
  induction items generalizing values with
  | nil => simp [pure, Except.pure, eq_comm]
  | cons item rest ih =>
    rw [List.mapM_cons, Except.bind_eq_ok_iff]
    simp only [Except.bind_eq_ok_iff, ih, pure, Except.pure, Except.ok.injEq]
    constructor
    · rintro ⟨value, hvalue, others, hothers, rfl⟩
      exact .cons hvalue hothers
    · intro h
      cases h with
      | cons hvalue hothers => exact ⟨_, hvalue, _, hothers, rfl⟩

theorem exists_forall₂_iff {α β : Type} {r : α → β → Prop} {items : List α} :
    (∃ values, List.Forall₂ r items values) ↔ ∀ item ∈ items, ∃ value, r item value := by
  induction items with
  | nil => exact iff_of_true ⟨[], .nil⟩ nofun
  | cons item rest ih =>
    rw [List.forall_mem_cons, ← ih]
    constructor
    · rintro ⟨_, h⟩
      cases h with
      | cons hvalue hothers => exact ⟨⟨_, hvalue⟩, ⟨_, hothers⟩⟩
    · rintro ⟨⟨value, hvalue⟩, ⟨others, hothers⟩⟩
      exact ⟨value :: others, .cons hvalue hothers⟩

def TypeSystem.IsComposite (types : TypeSystem) (name : String) : Prop :=
  types.kindOf name = some .object ∨ types.kindOf name = some .interface ∨
    types.kindOf name = some .union

namespace Output

def IsLeaf (output : Output) : Prop :=
  output.opened ≠ .null ∧ ∀ items, output.opened ≠ .list items

theorem opened_opened (output : Output) : output.opened.opened = output.opened := by
  cases output with
  | scalar value => cases value <;> rfl
  | _ => rfl

end Output

namespace GraphQL

/-- The levels of a walk along a type, each with the opened output that it meets. A list level
leads on to the items of a list. -/
inductive Meets : Signature → Output → Signature → Output → Prop
  | here (type : Signature) (output : Output) : Meets type output type output.opened
  | nonNull {inner place : Signature} {output found : Output}
      (within : Meets inner output place found) : Meets (.nonNull inner) output place found
  | item {item place : Signature} {output entry found : Output} {items : List Output}
      (opened : output.opened = .list items) (mem : entry ∈ items)
      (within : Meets item entry place found) : Meets (.list item) output place found

def Shaped.IsLeaf : Shaped → Prop
  | .plain .null | .plain (.list _) | .list _ => False
  | .plain _ | .record .. => True

namespace Shaping

variable (shaping : Shaping) (path : String)

/-- What a level of a type asks of the output that it meets: lists at list levels, none at named
ones, records of no other type at objects, and records that are told apart at abstract types. -/
structure Admits (place : Signature) (found : Output) : Prop where
  lists : ∀ item, place = .list item → found = .null ∨ ∃ items, found = .list items
  names : ∀ name, place = .named name → ∀ items, found ≠ .list items
  objects : ∀ name record, place = .named name → found = .record record →
    shaping.types.kindOf name = some .object →
    ∀ tag, record.tag = some tag → tag.resolve shaping.types.elements = name
  abstracts : ∀ name record, place = .named name → found = .record record →
    shaping.types.kindOf name = some .interface ∨ shaping.types.kindOf name = some .union →
    ∃ discriminator concrete, Table.get? shaping.discriminators name = some discriminator ∧
      discriminator.discriminate record path = .ok concrete

/-- What a named level makes of an output that is neither null nor a list. -/
def MakesLeaf (type : String) (output : Output) (value : Shaped) : Prop :=
  shaping.shapeNamed type path output = .ok (some value)

/-- Every level of the type admits what it meets. -/
def Fits (type : Signature) (output : Output) : Prop :=
  ∀ place found, Meets type output place found → shaping.Admits path place found

end Shaping

theorem Meets.trans {type place inner : Signature} {output found deeper : Output}
    (h : Meets type output place found) (hdeeper : Meets place found inner deeper) :
    Meets type output inner deeper := by
  induction h with
  | here type output =>
    -- The second walk starts from what is open already.
    generalize hopened : output.opened = found at hdeeper
    induction hdeeper generalizing output with
    | here type found =>
      rw [← hopened, output.opened_opened]
      exact .here type output
    | nonNull _ ih => exact .nonNull (ih output hopened)
    | item opened mem within _ =>
      rw [← hopened, output.opened_opened] at opened
      exact .item opened mem within
  | nonNull _ ih => exact .nonNull (ih hdeeper)
  | item opened mem _ ih => exact .item opened mem (ih hdeeper)

theorem meets_named_iff {name : String} {place : Signature} {output found : Output} :
    Meets (.named name) output place found ↔ place = .named name ∧ found = output.opened := by
  constructor
  · rintro ⟨⟩
    exact ⟨rfl, rfl⟩
  · rintro ⟨rfl, rfl⟩
    exact .here _ _

namespace Shaping

variable {shaping : Shaping} {path : String}

theorem admits_nonNull (inner : Signature) (found : Output) :
    shaping.Admits path (.nonNull inner) found where
  lists := nofun
  names := nofun
  objects := nofun
  abstracts := nofun

theorem admits_list_iff {item : Signature} {found : Output} :
    shaping.Admits path (.list item) found ↔ found = .null ∨ ∃ items, found = .list items :=
  ⟨fun h => h.lists item rfl, fun h => ⟨fun _ _ => h, nofun, nofun, nofun⟩⟩

theorem fits_nonNull_iff {inner : Signature} {output : Output} :
    shaping.Fits path (.nonNull inner) output ↔ shaping.Fits path inner output := by
  constructor
  · intro h place found hmeets
    exact h place found (.nonNull hmeets)
  · rintro h place found (_ | hmeets)
    · exact admits_nonNull inner _
    · exact h place found hmeets

theorem fits_named_iff {name : String} {output : Output} :
    shaping.Fits path (.named name) output ↔ shaping.Admits path (.named name) output.opened := by
  constructor
  · intro h
    exact h _ _ (.here _ _)
  · intro h place found hmeets
    obtain ⟨rfl, rfl⟩ := meets_named_iff.mp hmeets
    exact h

theorem fits_list_iff {item : Signature} {output : Output} :
    shaping.Fits path (.list item) output ↔
      output.opened = .null ∨
        ∃ items, output.opened = .list items ∧ ∀ entry ∈ items, shaping.Fits path item entry := by
  constructor
  · intro h
    rcases admits_list_iff.mp (h _ _ (.here _ _)) with hnull | ⟨items, hitems⟩
    · exact Or.inl hnull
    · exact Or.inr ⟨items, hitems, fun entry hentry place found hmeets =>
        h place found (.item hitems hentry hmeets)⟩
  · intro h place found hmeets
    cases hmeets with
    | here => exact admits_list_iff.mpr (h.imp_right fun ⟨items, hitems, _⟩ => ⟨items, hitems⟩)
    | item opened mem within =>
      have hnull : output.opened ≠ .null := by
        rw [opened]
        nofun
      obtain ⟨items, hitems, heach⟩ := h.resolve_left hnull
      obtain rfl := Output.list.inj (hitems.symm.trans opened)
      exact heach _ mem place found within

def shapeItem (shaping : Shaping) (path : String) (type : Signature) (output : Output) :
    Except FieldError Shaped :=
  (shaping.shape path type output).map fun value => value.getD (.plain .null)

theorem exists_shapeItem_iff {type : Signature} {output : Output} :
    (∃ value, shaping.shapeItem path type output = .ok value) ↔
      ∃ result, shaping.shape path type output = .ok result := by
  rw [shapeItem]
  cases shaping.shape path type output with
  | ok result => exact iff_of_true ⟨_, rfl⟩ ⟨_, rfl⟩
  | error error => exact iff_of_false nofun nofun

theorem shape_list (shaping : Shaping) (path : String) (item : Signature) (output : Output) :
    shaping.shape path (.list item) output =
      match output.opened with
      | .null => .ok none
      | .list items =>
        (items.mapM (shaping.shapeItem path item)).map fun values => some (.list values)
      | _ => .error ⟨s!"Field \"{path}\" must resolve to a list", none⟩ := by
  rw [shape]
  rfl

theorem shape_list_eq_ok_iff {item : Signature} {output : Output} {result : Option Shaped} :
    shaping.shape path (.list item) output = .ok result ↔
      (output.opened = .null ∧ result = none) ∨
        ∃ items values, output.opened = .list items ∧ result = some (.list values) ∧
          List.Forall₂ (fun entry value => shaping.shapeItem path item entry = .ok value)
            items values := by
  rw [shape_list]
  cases hopened : output.opened with
  | null => simp [eq_comm]
  | list items =>
    simp only [Except.map_eq_ok_iff, List.mapM_eq_ok_iff]
    constructor
    · rintro ⟨values, hvalues, rfl⟩
      exact Or.inr ⟨items, values, rfl, rfl, hvalues⟩
    · rintro (⟨hnull, -⟩ | ⟨_, values, ⟨rfl⟩, rfl, hvalues⟩)
      · cases hnull
      · exact ⟨values, hvalues, rfl⟩
  | scalar | record => simp

theorem shapeRecord_of_object {type : String} (hkind : shaping.types.kindOf type = some .object)
    (record : Record) (path : String) :
    shaping.shapeRecord record type path = shaping.checkTag record type path := by
  rw [shapeRecord, hkind]

theorem shapeRecord_of_not_composite {type : String} (h : ¬shaping.types.IsComposite type)
    (record : Record) (path : String) :
    shaping.shapeRecord record type path = .ok (.plain (.ofJson record.toJson)) := by
  rw [TypeSystem.IsComposite, not_or, not_or] at h
  unfold shapeRecord
  split
  next hkind => exact absurd hkind h.1
  next hkind => exact absurd hkind h.2.1
  next hkind => exact absurd hkind h.2.2
  next => rfl

theorem exists_checkTag_iff {type : String} {record : Record} :
    (∃ value, shaping.checkTag record type path = .ok value) ↔
      ∀ tag, record.tag = some tag → tag.resolve shaping.types.elements = type := by
  cases htag : record.tag with
  | none =>
    have hchecked : shaping.checkTag record type path = .ok (.record record none) := by
      simp only [checkTag, htag, Option.map_none]
    refine iff_of_true ⟨_, hchecked⟩ ?_
    rintro tag ⟨⟩
  | some tag =>
    simp only [checkTag, htag, Option.map_some, Option.some.injEq, forall_eq']
    split
    next hmade => exact iff_of_true ⟨_, rfl⟩ hmade
    next hmade =>
      refine iff_of_false ?_ hmade
      rintro ⟨_, ⟨⟩⟩

theorem shapeRecord_of_undecided {type : String}
    (hkind : shaping.types.kindOf type = some .interface ∨
      shaping.types.kindOf type = some .union)
    (hget : Table.get? shaping.discriminators type = none) (record : Record) (path : String) :
    shaping.shapeRecord record type path = .error Failure.schemaUnavailable.toFieldError := by
  rcases hkind with hkind | hkind <;> simp only [shapeRecord, hkind, hget]

theorem exists_shapeRecord_of_abstract_iff {type : String}
    (hkind : shaping.types.kindOf type = some .interface ∨
      shaping.types.kindOf type = some .union) {record : Record} :
    (∃ value, shaping.shapeRecord record type path = .ok value) ↔
      ∃ discriminator concrete, Table.get? shaping.discriminators type = some discriminator ∧
        discriminator.discriminate record path = .ok concrete := by
  cases hget : Table.get? shaping.discriminators type with
  | none =>
    rw [shapeRecord_of_undecided hkind hget]
    exact iff_of_false nofun nofun
  | some discriminator =>
    rw [shapeRecord_of_abstract hkind hget]
    cases hdecided : discriminator.discriminate record path with
    | ok concrete => exact iff_of_true ⟨_, rfl⟩ ⟨discriminator, concrete, rfl, hdecided⟩
    | error error =>
      refine iff_of_false nofun ?_
      rintro ⟨_, concrete, ⟨rfl⟩, hconcrete⟩
      rw [hdecided] at hconcrete
      cases hconcrete

theorem admits_record_iff {type : String} {record : Record} :
    shaping.Admits path (.named type) (.record record) ↔
      (shaping.types.kindOf type = some .object →
        ∀ tag, record.tag = some tag → tag.resolve shaping.types.elements = type) ∧
      (shaping.types.kindOf type = some .interface ∨ shaping.types.kindOf type = some .union →
        ∃ discriminator concrete, Table.get? shaping.discriminators type = some discriminator ∧
          discriminator.discriminate record path = .ok concrete) := by
  refine ⟨fun h => ⟨h.objects _ _ rfl rfl, h.abstracts _ _ rfl rfl⟩,
    fun h => ⟨nofun, nofun, ?_, ?_⟩⟩
  · rintro _ _ ⟨rfl⟩ ⟨rfl⟩
    exact h.1
  · rintro _ _ ⟨rfl⟩ ⟨rfl⟩
    exact h.2

theorem exists_shapeRecord_iff {type : String} {record : Record} :
    (∃ value, shaping.shapeRecord record type path = .ok value) ↔
      shaping.Admits path (.named type) (.record record) := by
  rw [admits_record_iff]
  by_cases hobject : shaping.types.kindOf type = some .object
  · rw [shapeRecord_of_object hobject, exists_checkTag_iff]
    simp [hobject]
  by_cases habstract : shaping.types.kindOf type = some .interface ∨
      shaping.types.kindOf type = some .union
  · rw [exists_shapeRecord_of_abstract_iff habstract]
    exact ⟨fun h => ⟨fun hkind => absurd hkind hobject, fun _ => h⟩, fun h => h.2 habstract⟩
  · have hplain : ¬shaping.types.IsComposite type := not_or.mpr ⟨hobject, habstract⟩
    exact iff_of_true ⟨_, shapeRecord_of_not_composite hplain record path⟩
      ⟨fun hkind => absurd hkind hobject, fun hkind => absurd hkind habstract⟩

theorem exists_shapeNamed_iff {type : String} {output : Output} :
    (∃ result, shaping.shapeNamed type path output = .ok result) ↔
      shaping.Admits path (.named type) output.opened := by
  rw [shapeNamed]
  cases output.opened with
  | null => exact iff_of_true ⟨none, rfl⟩ ⟨nofun, nofun, nofun, nofun⟩
  | list items => exact iff_of_false nofun fun h => h.names type rfl items rfl
  | scalar value => exact iff_of_true ⟨_, rfl⟩ ⟨nofun, nofun, nofun, nofun⟩
  | record record =>
    rw [← exists_shapeRecord_iff]
    simp only [Except.map_eq_ok_iff]
    constructor
    · rintro ⟨_, value, hvalue, -⟩
      exact ⟨value, hvalue⟩
    · rintro ⟨value, hvalue⟩
      exact ⟨_, value, hvalue, rfl⟩

/-- Shaping succeeds where every level admits what it meets. -/
theorem exists_shape_iff {type : Signature} {output : Output} :
    (∃ result, shaping.shape path type output = .ok result) ↔ shaping.Fits path type output := by
  induction type generalizing output with
  | named name => rw [shape, exists_shapeNamed_iff, fits_named_iff]
  | nonNull inner ih => rw [shape, ih, fits_nonNull_iff]
  | list item ih =>
    have hitems : ∀ items, (∃ values, List.Forall₂
        (fun entry value => shaping.shapeItem path item entry = .ok value) items values) ↔
        ∀ entry ∈ items, shaping.Fits path item entry := fun items => by
      rw [exists_forall₂_iff]
      exact forall₂_congr fun entry _ => exists_shapeItem_iff.trans ih
    simp only [shape_list_eq_ok_iff, fits_list_iff, ← hitems]
    constructor
    · rintro ⟨_, ⟨hnull, -⟩ | ⟨items, values, hopened, -, hvalues⟩⟩
      · exact Or.inl hnull
      · exact Or.inr ⟨items, hopened, values, hvalues⟩
    · rintro (hnull | ⟨items, hopened, values, hvalues⟩)
      · exact ⟨none, Or.inl ⟨hnull, rfl⟩⟩
      · exact ⟨_, Or.inr ⟨items, values, hopened, rfl, hvalues⟩⟩

theorem isLeaf_ofFloat (value : Binary64) : (Shaped.plain (.ofFloat value)).IsLeaf := by
  rw [Value.ofFloat]
  split <;> trivial

theorem isLeaf_ofInteger (value : Int) : (Shaped.plain (.ofInteger value)).IsLeaf := by
  rw [Value.ofInteger]
  split
  next => trivial
  next =>
    split
    next => trivial
    next => exact isLeaf_ofFloat _

/-- What has nothing to open is no null, list or object. -/
theorem isLeaf_ofJson {value : Json} (h : (Output.scalar value).opened = .scalar value) :
    (Shaped.plain (.ofJson value)).IsLeaf := by
  cases value with
  | null | arr | obj => cases h
  | bool | str => trivial
  | int value => exact isLeaf_ofInteger value
  | float value => exact isLeaf_ofFloat value

theorem shapeScalar_isLeaf {value : Json} (h : (Output.scalar value).opened = .scalar value)
    (type : String) : (shaping.shapeScalar value type).IsLeaf := by
  unfold shapeScalar
  split
  next => trivial
  next => exact isLeaf_ofJson h

theorem record_of_checkTag {type : String} {record : Record} {value : Shaped}
    (h : shaping.checkTag record type path = .ok value) :
    ∃ found, value = .record found none ∧ found.fields = record.fields := by
  simp only [checkTag] at h
  split at h
  next => exact ⟨record, (Except.ok.inj h).symm, rfl⟩
  next =>
    split at h
    next => exact ⟨record.settled, (Except.ok.inj h).symm, rfl⟩
    next => cases h

/-- At a composite type a record stays one, and keeps its fields. -/
theorem record_of_shapeRecord {type : String} (hkind : shaping.types.IsComposite type)
    {record : Record} {value : Shaped} (h : shaping.shapeRecord record type path = .ok value) :
    ∃ found concrete, value = .record found concrete ∧ found.fields = record.fields := by
  rcases hkind with hobject | habstract
  · rw [shapeRecord_of_object hobject] at h
    obtain ⟨found, hfound⟩ := record_of_checkTag h
    exact ⟨found, none, hfound⟩
  · obtain ⟨discriminator, concrete, hget, hconcrete⟩ :=
      (exists_shapeRecord_of_abstract_iff habstract).mp ⟨value, h⟩
    rw [shapeRecord_of_abstract habstract hget, hconcrete] at h
    exact ⟨record.settled, some concrete, (Except.ok.inj h).symm, rfl⟩

theorem shapeRecord_isLeaf {type : String} {record : Record} {value : Shaped}
    (h : shaping.shapeRecord record type path = .ok value) : value.IsLeaf := by
  by_cases hkind : shaping.types.IsComposite type
  · obtain ⟨found, concrete, rfl, -⟩ := record_of_shapeRecord hkind h
    trivial
  · rw [shapeRecord_of_not_composite hkind] at h
    rw [← Except.ok.inj h]
    obtain ⟨tag, fields⟩ := record
    trivial

/-- At a named level a null yields nothing, and what is no null yields a leaf. -/
theorem leaf_of_shapeNamed {type : String} {output : Output} {result : Option Shaped}
    (h : shaping.shapeNamed type path output = .ok result) :
    (output.opened = .null ∧ result = none) ∨
      output.IsLeaf ∧ ∃ value, result = some value ∧ value.IsLeaf := by
  have hagain := output.opened_opened
  rw [shapeNamed] at h
  unfold Output.IsLeaf
  cases hopened : output.opened with
  | null =>
    rw [hopened] at h
    exact Or.inl ⟨rfl, (Except.ok.inj h).symm⟩
  | list items =>
    rw [hopened] at h
    cases h
  | scalar value =>
    rw [hopened] at h hagain
    exact Or.inr ⟨⟨nofun, nofun⟩, _, (Except.ok.inj h).symm, shapeScalar_isLeaf hagain type⟩
  | record record =>
    rw [hopened] at h
    obtain ⟨value, hvalue, rfl⟩ := Except.map_eq_ok_iff.mp h
    exact Or.inr ⟨⟨nofun, nofun⟩, value, rfl, shapeRecord_isLeaf hvalue⟩

end Shaping

end GraphQL

end Schemata
