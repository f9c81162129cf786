import Mathlib.Data.List.Induction
import Mathlib.Data.String.Basic
import Schemata.GraphQL.Value
import Schemata.Output
import Schemata.Proofs.Table

namespace Schemata

theorem Table.map_eq_self {α : Type} {f : α → α} {table : Table α}
    (h : ∀ entry ∈ table, f entry.2 = entry.2) :
    table.map (fun entry => (entry.1, f entry.2)) = table := by
  refine (List.map_congr_left (g := id) fun entry hentry => ?_).trans (List.map_id table)
  exact Prod.ext rfl (h entry hentry)

/-- Two tables of the same entries by ascending key are the same table. -/
theorem Table.eq_of_perm_of_ascending {α : Type} {table other : Table α}
    (h : (Table.keys table).Pairwise (· < ·)) (hother : (Table.keys other).Pairwise (· < ·))
    (hperm : table.Perm other) : table = other := by
  refine List.Perm.eq_of_pairwise (fun _ _ _ _ hless hgreater => ?_)
    (List.pairwise_map.mp h) (List.pairwise_map.mp hother) hperm
  exact absurd hgreater hless.asymm

/-- A recursion that treats each item alone is a map. -/
theorem eq_map_of_cons {α β : Type} {f : List α → List β} {g : α → β} (hnil : f [] = [])
    (hcons : ∀ item rest, f (item :: rest) = g item :: f rest) (items : List α) :
    f items = items.map g := by
  induction items with
  | nil => exact hnil
  | cons item rest ih => rw [hcons, ih, List.map_cons]

/-- Induction over the items of arrays and the values of objects. -/
@[elab_as_elim]
theorem Json.nested_induction {motive : Json → Prop}
    (leaf : ∀ value : Json, value.asItems? = none → value.asMembers? = none → motive value)
    (arr : ∀ items : List Json, (∀ item ∈ items, motive item) → motive (.arr items))
    (obj : ∀ members : List (String × Json), (∀ member ∈ members, motive member.2) →
      motive (.obj members))
    (value : Json) : motive value := by
  refine @Json.rec motive (fun items => ∀ item ∈ items, motive item)
    (fun members => ∀ member ∈ members, motive member.2) (fun member => motive member.2)
    (leaf .null rfl rfl) (fun value => leaf (.bool value) rfl rfl)
    (fun value => leaf (.int value) rfl rfl) (fun value => leaf (.float value) rfl rfl)
    (fun text => leaf (.str text) rfl rfl) arr obj nofun ?_ nofun ?_ (fun _ _ h => h) value
  · intro item rest hitem hrest
    exact List.forall_mem_cons.mpr ⟨hitem, hrest⟩
  · intro member rest hmember hrest
    exact List.forall_mem_cons.mpr ⟨hmember, hrest⟩

namespace Json

/-- Integers fit a word, floats are finite, and the members of an object stand by ascending key. -/
inductive WellFormed : Json → Prop
  | null : WellFormed .null
  | bool (value : Bool) : WellFormed (.bool value)
  | int {value : Int} (range : inRange value = true) : WellFormed (.int value)
  | float {value : Binary64} (finite : value.isFinite = true) : WellFormed (.float value)
  | str (text : String) : WellFormed (.str text)
  | arr {items : List Json} (each : ∀ item ∈ items, WellFormed item) : WellFormed (.arr items)
  | obj {members : List (String × Json)} (ascending : (Table.keys members).Pairwise (· < ·))
      (each : ∀ member ∈ members, WellFormed member.2) : WellFormed (.obj members)

theorem insertMember_perm {key : String} {members : List (String × Json)}
    (h : key ∉ Table.keys members) (value : Json) :
    (insertMember key value members).Perm ((key, value) :: members) := by
  induction members with
  | nil => exact List.Perm.refl _
  | cons member rest ih =>
    rw [Table.keys_cons, List.mem_cons, not_or] at h
    rw [insertMember]
    split
    next => exact List.Perm.refl _
    next =>
      rw [if_neg h.1]
      exact ((ih h.2).cons member).trans (List.Perm.swap _ _ _)

theorem mem_keys_insertMember {key : String} {members : List (String × Json)}
    (h : key ∉ Table.keys members) (value : Json) {name : String} :
    name ∈ Table.keys (insertMember key value members) ↔
      name = key ∨ name ∈ Table.keys members := by
  have hperm := (insertMember_perm h value).map Prod.fst
  rw [Table.keys, hperm.mem_iff, List.map_cons, List.mem_cons]
  rfl

/-- An object keeps its members listed by ascending key. -/
theorem insertMember_ascending {key : String} {members : List (String × Json)}
    (h : key ∉ Table.keys members) (value : Json)
    (hascending : (Table.keys members).Pairwise (· < ·)) :
    (Table.keys (insertMember key value members)).Pairwise (· < ·) := by
  induction members with
  | nil => exact List.pairwise_singleton _ _
  | cons member rest ih =>
    obtain ⟨first, old⟩ := member
    rw [Table.keys_cons, List.pairwise_cons] at hascending
    have hnew := h
    rw [Table.keys_cons, List.mem_cons, not_or] at hnew
    rw [insertMember]
    split
    next hbefore =>
      rw [Table.keys_cons, Table.keys_cons, List.pairwise_cons, List.pairwise_cons]
      refine ⟨?_, hascending⟩
      rintro other hother
      rcases List.mem_cons.mp hother with rfl | hother
      · exact hbefore
      · exact hbefore.trans (hascending.1 other hother)
    next hbefore =>
      rw [if_neg hnew.1, Table.keys_cons, List.pairwise_cons]
      refine ⟨?_, ih hnew.2 hascending.2⟩
      intro other hother
      rcases (mem_keys_insertMember hnew.2 value).mp hother with rfl | hother
      · exact lt_of_le_of_ne (not_lt.mp hbefore) (Ne.symm hnew.1)
      · exact hascending.1 other hother

/-- Distinct members are only put in order. -/
theorem sortMembers_spec {members : List (String × Json)} (h : (Table.keys members).Nodup) :
    (sortMembers members).Perm members ∧
      (Table.keys (sortMembers members)).Pairwise (· < ·) := by
  induction members using List.reverseRecOn with
  | nil => exact ⟨List.Perm.refl _, List.Pairwise.nil⟩
  | append_singleton members member ih =>
    rw [Table.keys_append, List.nodup_append'] at h
    obtain ⟨hmembers, -, hdisjoint⟩ := h
    obtain ⟨hperm, hascending⟩ := ih hmembers
    have hnew : member.1 ∉ Table.keys (sortMembers members) := fun hmem =>
      hdisjoint ((hperm.map Prod.fst).mem_iff.mp hmem) List.mem_cons_self
    have hsorted : sortMembers (members ++ [member]) =
        insertMember member.1 member.2 (sortMembers members) := List.foldl_concat ..
    rw [hsorted]
    refine ⟨?_, insertMember_ascending hnew member.2 hascending⟩
    exact ((insertMember_perm hnew member.2).trans (hperm.cons member)).trans
      (List.perm_append_singleton member members).symm

theorem insertMember_last {key : String} {members : List (String × Json)}
    (h : ∀ name ∈ Table.keys members, name < key) (value : Json) :
    insertMember key value members = members ++ [(key, value)] := by
  induction members with
  | nil => rfl
  | cons member rest ih =>
    rw [Table.keys_cons, List.forall_mem_cons] at h
    rw [insertMember, if_neg h.1.asymm, if_neg h.1.ne', ih h.2, List.cons_append]

theorem sortMembers_of_ascending {members : List (String × Json)}
    (h : (Table.keys members).Pairwise (· < ·)) : sortMembers members = members := by
  induction members using List.reverseRecOn with
  | nil => rfl
  | append_singleton members member ih =>
    rw [Table.keys_append, List.pairwise_append] at h
    obtain ⟨hmembers, -, hlast⟩ := h
    have hbefore : ∀ name ∈ Table.keys members, name < member.1 :=
      fun name hname => hlast name hname member.1 List.mem_cons_self
    have hsorted : sortMembers (members ++ [member]) =
        insertMember member.1 member.2 (sortMembers members) := List.foldl_concat ..
    rw [hsorted, ih hmembers, insertMember_last hbefore]

theorem object_of_ascending {members : List (String × Json)}
    (h : (Table.keys members).Pairwise (· < ·)) : object members = .obj members := by
  rw [object, sortMembers_of_ascending h]

end Json

namespace Output

theorem ofItems_eq (items : List Json) : ofItems items = items.map ofJson :=
  eq_map_of_cons rfl (fun _ _ => rfl) items

theorem ofMembers_eq (members : List (String × Json)) :
    ofMembers members = members.map fun member => (member.1, ofJson member.2) :=
  eq_map_of_cons rfl (fun _ _ => rfl) members

theorem itemsToJson_eq (items : List Output) : itemsToJson items = items.map toJson :=
  eq_map_of_cons rfl (fun _ _ => rfl) items

theorem fieldsToJson_eq (fields : List (String × Output)) :
    fieldsToJson fields = fields.map fun field => (field.1, field.2.toJson) :=
  eq_map_of_cons rfl (fun _ _ => rfl) fields

theorem toJson_ofJson {json : Json} (h : json.WellFormed) : (ofJson json).toJson = json := by
  induction h with
  | null | bool | int | float | str => rfl
  | @arr items _ ih =>
    rw [ofJson, toJson, itemsToJson_eq, ofItems_eq, List.map_map, Json.arr.injEq]
    exact (List.map_congr_left ih).trans (List.map_id' items)
  | @obj members hascending _ ih =>
    have hmembers : fieldsToJson (ofMembers members) = members := by
      rw [fieldsToJson_eq, ofMembers_eq, List.map_map]
      exact Table.map_eq_self (f := fun member => (ofJson member).toJson) ih
    rw [ofJson, toJson, hmembers, Json.object_of_ascending hascending]

end Output

namespace GraphQL.Value

theorem ofFloat_of_finite {value : Binary64} (h : value.isFinite = true) :
    ofFloat value = .float value :=
  if_pos h

theorem ofInteger_of_inRange {value : Int} (h : Json.inRange value = true) :
    ofInteger value = .int value := by
  rw [Json.inRange, Bool.and_eq_true, decide_eq_true_eq, decide_eq_true_eq] at h
  rw [ofInteger, Json.asInt64?]
  by_cases hsigned : value < signed64Bound
  · rw [if_pos hsigned]
  · -- What no signed word holds is not negative.
    have hunsigned : 0 ≤ value ∧ value < unsigned64Bound := by
      rw [signed64Bound] at hsigned
      exact ⟨by omega, h.2⟩
    rw [if_neg hsigned, Json.asUnsigned64?, if_pos hunsigned]

theorem ofItems_eq (items : List Json) : ofItems items = items.map ofJson :=
  eq_map_of_cons rfl (fun _ _ => rfl) items

theorem ofMembers_eq (members : List (String × Json)) :
    ofMembers members = members.map fun member => (member.1, ofJson member.2) :=
  eq_map_of_cons rfl (fun _ _ => rfl) members

theorem itemsToJson_eq (items : List Value) : itemsToJson items = items.map toJson :=
  eq_map_of_cons rfl (fun _ _ => rfl) items

theorem fieldsToJson_eq (fields : List (String × Value)) :
    fieldsToJson fields = fields.map fun field => (field.1, field.2.toJson) :=
  eq_map_of_cons rfl (fun _ _ => rfl) fields

/-- Integers stay integers and floats floats, each with its value. -/
theorem toJson_ofJson {json : Json} (h : json.WellFormed) : (ofJson json).toJson = json := by
  induction h with
  | null | bool | str => rfl
  | int hrange => rw [ofJson, ofInteger_of_inRange hrange, toJson]
  | float hfinite => rw [ofJson, ofFloat_of_finite hfinite, toJson]
  | @arr items _ ih =>
    rw [ofJson, toJson, itemsToJson_eq, ofItems_eq, List.map_map, Json.arr.injEq]
    exact (List.map_congr_left ih).trans (List.map_id' items)
  | @obj members hascending _ ih =>
    have hmembers : fieldsToJson (ofMembers members) = members := by
      rw [fieldsToJson_eq, ofMembers_eq, List.map_map]
      exact Table.map_eq_self (f := fun member => (ofJson member).toJson) ih
    rw [ofJson, toJson, hmembers, Json.object_of_ascending hascending]

end GraphQL.Value

end Schemata
