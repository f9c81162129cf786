import Mathlib.Data.List.Forall2
import Mathlib.Data.List.Sort
import Schemata.Proofs.Documents

namespace Schemata

/-- Where each item is related to one thing only, a list is related to the list of those. -/
theorem forall₂_iff_eq_map {α β : Type} {R : α → β → Prop} {f : α → β} {items : List α}
    (h : ∀ item ∈ items, ∀ image, R item image ↔ image = f item) (images : List β) :
    List.Forall₂ R items images ↔ images = items.map f := by
  induction items generalizing images with
  | nil => rw [List.forall₂_nil_left_iff, List.map_nil]
  | cons item rest ih =>
    rw [List.forall_mem_cons] at h
    simp only [List.forall₂_cons_left_iff, h.1, ih h.2, List.map_cons, exists_eq_left,
      exists_and_left]

namespace Output

/-- Scalars hold documents as they are read, and no record has two fields of one name. -/
inductive WellFormed : Output → Prop
  | null : WellFormed .null
  | scalar {value : Json} (holds : value.WellFormed) : WellFormed (.scalar value)
  | list {items : List Output} (each : ∀ item ∈ items, WellFormed item) : WellFormed (.list items)
  | record {tag : Option TypeName} {fields : Table Output} (distinct : (Table.keys fields).Nodup)
      (each : ∀ field ∈ fields, WellFormed field.2) : WellFormed (.record ⟨tag, fields⟩)

theorem WellFormed.set {record : Record} {value : Output} (h : (Output.record record).WellFormed)
    (hvalue : value.WellFormed) (name : String) :
    (Output.record (record.set name value)).WellFormed := by
  cases h with
  | record hdistinct heach =>
    exact .record (Table.nodup_keys_insert hdistinct name value)
      (Table.forall_mem_insert heach hvalue)

/-- The form of an output in which no record has a tag, fields stand by ascending name, and a scalar
that holds null, an array or an object is the null, the list or the record of what it holds. -/
inductive CanonicalForm : Output → Output → Prop
  | null : CanonicalForm .null .null
  | leaf {value : Json} (notNull : value.isNull = false) (notItems : value.asItems? = none)
      (notMembers : value.asMembers? = none) : CanonicalForm (.scalar value) (.scalar value)
  | boxedNull : CanonicalForm (.scalar .null) .null
  | boxedItems {items : List Json} {form : Output}
      (opened : CanonicalForm (.list (items.map .scalar)) form) :
      CanonicalForm (.scalar (.arr items)) form
  | boxedMembers {members : Table Json} {form : Output}
      (opened : CanonicalForm
        (.record ⟨none, members.map fun member => (member.1, .scalar member.2)⟩) form) :
      CanonicalForm (.scalar (.obj members)) form
  | list {items forms : List Output} (each : List.Forall₂ CanonicalForm items forms) :
      CanonicalForm (.list items) (.list forms)
  | record {tag : Option TypeName} {fields forms sorted : Table Output}
      (names : Table.keys forms = Table.keys fields)
      (each : List.Forall₂ CanonicalForm (fields.map Prod.snd) (forms.map Prod.snd))
      (reordered : sorted.Perm forms) (ascending : (Table.keys sorted).Pairwise (· < ·)) :
      CanonicalForm (.record ⟨tag, fields⟩) (.record ⟨none, sorted⟩)

theorem keys_fieldsToJson (fields : Table Output) :
    Table.keys (fieldsToJson fields) = Table.keys fields := by
  rw [fieldsToJson_eq, Table.keys_map]

theorem keys_ofMembers (members : Table Json) :
    Table.keys (ofMembers members) = Table.keys members := by
  rw [ofMembers_eq, Table.keys_map]

theorem toJson_wellFormed {output : Output} (h : output.WellFormed) : output.toJson.WellFormed := by
  induction h with
  | null => exact .null
  | scalar hvalue => exact hvalue
  | @list items _ ih =>
    rw [toJson, itemsToJson_eq]
    exact .arr (List.forall_mem_map.mpr ih)
  | @record tag fields hdistinct _ ih =>
    rw [← keys_fieldsToJson] at hdistinct
    obtain ⟨hperm, hascending⟩ := Json.sortMembers_spec hdistinct
    rw [toJson]
    refine .obj hascending fun member hmember => ?_
    rw [hperm.mem_iff, fieldsToJson_eq, List.mem_map] at hmember
    obtain ⟨field, hfield, rfl⟩ := hmember
    exact ih field hfield

theorem ofJson_wellFormed {json : Json} (h : json.WellFormed) : (ofJson json).WellFormed := by
  induction h with
  | null => exact .null
  | bool value => exact .scalar (.bool value)
  | int hrange => exact .scalar (.int hrange)
  | float hfinite => exact .scalar (.float hfinite)
  | str text => exact .scalar (.str text)
  | @arr items _ ih =>
    rw [ofJson, ofItems_eq]
    exact .list (List.forall_mem_map.mpr ih)
  | @obj members hascending _ ih =>
    rw [ofJson]
    refine .record ?_ ?_
    · rw [keys_ofMembers]
      exact hascending.imp ne_of_lt
    · rw [ofMembers_eq]
      exact List.forall_mem_map.mpr ih

theorem canonicalForm_list_iff {items : List Output}
    (h : ∀ item ∈ items, ∀ form, CanonicalForm item form ↔ form = ofJson item.toJson)
    (form : Output) :
    CanonicalForm (.list items) form ↔ form = ofJson (Output.list items).toJson := by
  have hback : ofJson (Output.list items).toJson =
      .list (items.map fun item => ofJson item.toJson) := by
    rw [toJson, ofJson, itemsToJson_eq, ofItems_eq, List.map_map]
    rfl
  rw [hback]
  constructor
  · rintro ⟨⟩
    next forms heach => rw [(forall₂_iff_eq_map h forms).mp heach]
  · rintro rfl
    exact .list ((forall₂_iff_eq_map h _).mpr rfl)

theorem canonicalForm_record_iff {tag : Option TypeName} {fields : Table Output}
    (hdistinct : (Table.keys fields).Nodup)
    (h : ∀ field ∈ fields, ∀ form, CanonicalForm field.2 form ↔ form = ofJson field.2.toJson)
    (form : Output) :
    CanonicalForm (.record ⟨tag, fields⟩) form ↔
      form = ofJson (Output.record ⟨tag, fields⟩).toJson := by
  obtain ⟨hperm, hascending⟩ : (Json.sortMembers (fieldsToJson fields)).Perm (fieldsToJson fields) ∧
      (Table.keys (Json.sortMembers (fieldsToJson fields))).Pairwise (· < ·) :=
    Json.sortMembers_spec (by rwa [keys_fieldsToJson])
  have hback : ofJson (Output.record ⟨tag, fields⟩).toJson =
      .record ⟨none, ofMembers (Json.sortMembers (fieldsToJson fields))⟩ := by
    rw [toJson, Json.object, ofJson]
  generalize Json.sortMembers (fieldsToJson fields) = sorted at hperm hascending hback
  -- The fields come back as their forms, in the order of their names.
  have hreordered : (ofMembers sorted).Perm
      (fields.map fun field => (field.1, ofJson field.2.toJson)) := by
    rw [ofMembers_eq]
    refine (hperm.map _).trans (List.Perm.of_eq ?_)
    rw [fieldsToJson_eq, List.map_map]
    rfl
  have hforms : ∀ forms, Table.keys forms = Table.keys fields ∧
      List.Forall₂ CanonicalForm (fields.map Prod.snd) (forms.map Prod.snd) ↔
        forms = fields.map fun field => (field.1, ofJson field.2.toJson) := by
    intro forms
    have hvalues : ∀ value ∈ fields.map Prod.snd, ∀ form,
        CanonicalForm value form ↔ form = ofJson value.toJson := List.forall_mem_map.mpr h
    rw [forall₂_iff_eq_map hvalues]
    exact Table.eq_map_iff.symm
  rw [← keys_ofMembers] at hascending
  rw [hback]
  constructor
  · intro hform
    cases hform with
    | @record _ _ forms ordered hnames heach hordered hsorted =>
      rw [(hforms forms).mp ⟨hnames, heach⟩] at hordered
      rw [Table.eq_of_perm_of_ascending hsorted hascending (hordered.trans hreordered.symm)]
  · rintro rfl
    obtain ⟨hnames, heach⟩ := (hforms _).mpr rfl
    exact .record hnames heach hreordered hascending

theorem canonicalForm_leaf_iff {value : Json} (hnull : value.isNull = false)
    (hitems : value.asItems? = none) (hmembers : value.asMembers? = none) (form : Output) :
    CanonicalForm (.scalar value) form ↔ form = .scalar value := by
  constructor
  · rintro ⟨⟩
    · rfl
    all_goals simp_all [Json.isNull, Json.asItems?, Json.asMembers?]
  · rintro rfl
    exact .leaf hnull hitems hmembers

theorem canonicalForm_arr_iff {items : List Json} {form : Output} :
    CanonicalForm (.scalar (.arr items)) form ↔ CanonicalForm (.list (items.map .scalar)) form := by
  constructor
  · rintro ⟨⟩
    · next hitems _ => cases hitems
    · assumption
  · exact .boxedItems

theorem canonicalForm_obj_iff {members : Table Json} {form : Output} :
    CanonicalForm (.scalar (.obj members)) form ↔ CanonicalForm
      (.record ⟨none, members.map fun member => (member.1, .scalar member.2)⟩) form := by
  constructor
  · rintro ⟨⟩
    · next hmembers => cases hmembers
    · assumption
  · exact .boxedMembers

theorem canonicalForm_scalar_iff {value : Json} (h : value.WellFormed) (form : Output) :
    CanonicalForm (.scalar value) form ↔ form = ofJson value := by
  induction h generalizing form with
  | null =>
    constructor
    · rintro (_ | _)
      · next hnull _ _ => cases hnull
      · rfl
    · rintro rfl
      exact .boxedNull
  | bool | int | float | str => exact canonicalForm_leaf_iff rfl rfl rfl form
  | @arr items _ ih =>
    have hopened : (Output.list (items.map .scalar)).toJson = .arr items := by
      rw [toJson, itemsToJson_eq, List.map_map]
      exact congrArg Json.arr (List.map_id' items)
    rw [canonicalForm_arr_iff, canonicalForm_list_iff (List.forall_mem_map.mpr ih), hopened]
  | @obj members hascending _ ih =>
    have hkeys : Table.keys (members.map fun member => (member.1, Output.scalar member.2)) =
        Table.keys members := Table.keys_map _ members
    have hopened : (Output.record
        ⟨none, members.map fun member => (member.1, .scalar member.2)⟩).toJson = .obj members := by
      rw [toJson, fieldsToJson_eq, List.map_map]
      exact (congrArg Json.object (List.map_id' members)).trans
        (Json.object_of_ascending hascending)
    have hdistinct : (Table.keys members).Nodup := hascending.imp ne_of_lt
    rw [← hkeys] at hdistinct
    rw [canonicalForm_obj_iff, canonicalForm_record_iff hdistinct (List.forall_mem_map.mpr ih),
      hopened]

theorem canonicalForm_iff {output : Output} (h : output.WellFormed) (form : Output) :
    CanonicalForm output form ↔ form = ofJson output.toJson := by
  induction h generalizing form with
  | null => exact ⟨fun hform => by cases hform; rfl, fun hform => hform ▸ .null⟩
  | scalar hvalue => exact canonicalForm_scalar_iff hvalue form
  | list _ ih => exact canonicalForm_list_iff ih form
  | record hdistinct _ ih => exact canonicalForm_record_iff hdistinct ih form

/-- A document survives as an output. An output comes back from its document in its canonical form,
which is canonical for itself, and the outputs that denote one document are those of one canonical
form. -/
theorem converts_losslessly {value : Json} {output other : Output} (hvalue : value.WellFormed)
    (houtput : output.WellFormed) (hother : other.WellFormed) :
    (ofJson value).toJson = value ∧
      (∀ form, CanonicalForm output form ↔ form = ofJson output.toJson) ∧
      (∀ form, CanonicalForm output form → ∀ settled, CanonicalForm form settled ↔ settled = form) ∧
      (output.toJson = other.toJson ↔
        ∃ form, CanonicalForm output form ∧ CanonicalForm other form) := by
  have hdocument := toJson_wellFormed houtput
  refine ⟨toJson_ofJson hvalue, canonicalForm_iff houtput, fun form hform settled => ?_, ?_, ?_⟩
  · obtain rfl := (canonicalForm_iff houtput form).mp hform
    rw [canonicalForm_iff (ofJson_wellFormed hdocument), toJson_ofJson hdocument]
  · intro hsame
    refine ⟨ofJson output.toJson, (canonicalForm_iff houtput _).mpr rfl, ?_⟩
    rw [canonicalForm_iff hother, hsame]
  · rintro ⟨form, hform, hform'⟩
    -- A document can be read off the form that its outputs settle to.
    calc output.toJson
      _ = (ofJson output.toJson).toJson := (toJson_ofJson hdocument).symm
      _ = form.toJson := by rw [(canonicalForm_iff houtput form).mp hform]
      _ = (ofJson other.toJson).toJson := by rw [(canonicalForm_iff hother form).mp hform']
      _ = other.toJson := toJson_ofJson (toJson_wellFormed hother)

def boxedDog : Output :=
  .record (((⟨some (.literal "Dog"), []⟩ : Record).set "toys"
    (.scalar (.arr [.str "ball", .null]))).set "name" (.scalar (.str "Rex")))

def canonicalDog : Output :=
  .record ⟨none, [("name", .scalar (.str "Rex")), ("toys", .list [.scalar (.str "ball"), .null])]⟩

theorem converts_losslessly_dog :
    boxedDog.WellFormed ∧ canonicalDog.WellFormed ∧ boxedDog.toJson = canonicalDog.toJson ∧
      CanonicalForm boxedDog canonicalDog ∧
      ∀ settled, CanonicalForm canonicalDog settled ↔ settled = canonicalDog := by
  have hname : (Output.scalar (.str "Rex")).WellFormed := .scalar (.str "Rex")
  have htoys : (Json.arr [.str "ball", .null]).WellFormed := by
    refine .arr ?_
    simp only [List.forall_mem_cons]
    exact ⟨.str "ball", .null, nofun⟩
  have hempty : (Output.record ⟨some (.literal "Dog"), []⟩).WellFormed :=
    .record List.nodup_nil nofun
  have hboxed : boxedDog.WellFormed := (hempty.set (.scalar htoys) "toys").set hname "name"
  have hdocument : boxedDog.toJson =
      .obj [("name", .str "Rex"), ("toys", .arr [.str "ball", .null])] := by
    decide +kernel
  have hback : ofJson boxedDog.toJson = canonicalDog := by
    rw [hdocument]
    rfl
  have hcanonical : canonicalDog.WellFormed := hback ▸ ofJson_wellFormed (toJson_wellFormed hboxed)
  obtain ⟨hsame, hform, hfixed, -⟩ :=
    converts_losslessly (toJson_wellFormed hboxed) hboxed hcanonical
  rw [hback] at hsame
  have hdog : CanonicalForm boxedDog canonicalDog := (hform canonicalDog).mpr hback.symm
  exact ⟨hboxed, hcanonical, hsame.symm, hdog, hfixed canonicalDog hdog⟩

end Output

end Schemata
