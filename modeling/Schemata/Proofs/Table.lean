import Mathlib.Data.List.Nodup
import Schemata.Table

namespace Schemata.Table

variable {α β : Type}

@[simp] theorem keys_nil : keys ([] : Table α) = [] := rfl

@[simp] theorem keys_cons (entry : String × α) (rest : Table α) :
    keys (entry :: rest) = entry.1 :: keys rest := rfl

@[simp] theorem keys_append (front back : Table α) :
    keys (front ++ back) = keys front ++ keys back :=
  List.map_append

theorem get?_cons (entry : String × α) (rest : Table α) (name : String) :
    get? (entry :: rest) name = if entry.1 = name then some entry.2 else get? rest name := rfl

theorem get?_append (front back : Table α) (name : String) :
    get? (front ++ back) name = (get? front name).or (get? back name) := by
  induction front with
  | nil => rfl
  | cons entry rest ih =>
    rw [List.cons_append, get?_cons, get?_cons, ih]
    split <;> rfl

theorem mem_of_get? {table : Table α} {name : String} {value : α}
    (h : get? table name = some value) : (name, value) ∈ table := by
  induction table with
  | nil => cases h
  | cons entry rest ih =>
    rw [get?_cons] at h
    split at h
    next hk =>
      obtain rfl : entry.2 = value := Option.some.inj h
      rw [← hk]
      exact List.mem_cons_self
    next => exact List.mem_cons_of_mem _ (ih h)

theorem mem_keys_of_mem {table : Table α} {name : String} {value : α}
    (h : (name, value) ∈ table) : name ∈ keys table :=
  List.mem_map.mpr ⟨_, h, rfl⟩

theorem mem_keys_of_get? {table : Table α} {name : String} {value : α}
    (h : get? table name = some value) : name ∈ keys table :=
  mem_keys_of_mem (mem_of_get? h)

theorem exists_get?_of_mem_keys {table : Table α} {name : String} (h : name ∈ keys table) :
    ∃ value, get? table name = some value := by
  rw [← Option.isSome_iff_exists, Option.isSome_iff_ne_none]
  intro hn
  exact (get?_eq_none_iff table name).mp hn h

theorem contains_iff {table : Table α} {name : String} :
    contains table name = true ↔ name ∈ keys table := by
  rw [contains, Option.isSome_iff_ne_none, Ne, get?_eq_none_iff, Decidable.not_not]

theorem contains_eq_false_iff {table : Table α} {name : String} :
    contains table name = false ↔ name ∉ keys table := by
  rw [← contains_iff, Bool.not_eq_true]

/-- With distinct keys the value found at a name is the only one stored under it. -/
theorem get?_of_mem {table : Table α} {name : String} {value : α} (hn : (keys table).Nodup)
    (h : (name, value) ∈ table) : get? table name = some value := by
  induction table with
  | nil => cases h
  | cons entry rest ih =>
    rw [keys_cons, List.nodup_cons] at hn
    rw [get?_cons]
    rcases List.mem_cons.mp h with rfl | h
    · exact if_pos rfl
    · have hne : entry.1 ≠ name := fun he => hn.1 (he ▸ mem_keys_of_mem h)
      rw [if_neg hne]
      exact ih hn.2 h

theorem get?_eq_some_iff {table : Table α} {name : String} {value : α} (hn : (keys table).Nodup) :
    get? table name = some value ↔ (name, value) ∈ table :=
  ⟨mem_of_get?, get?_of_mem hn⟩

theorem mem_keys_insert (table : Table α) (name : String) (value : α) (other : String) :
    other ∈ keys (insert table name value) ↔ other = name ∨ other ∈ keys table := by
  rw [keys_insert]
  split
  next h => exact ⟨Or.inr, fun ho => ho.elim (fun he => he ▸ h) id⟩
  next => rw [List.mem_append, List.mem_singleton, or_comm]

theorem insert_ne_nil (table : Table α) (name : String) (value : α) :
    insert table name value ≠ [] := by
  intro h
  have hfound := get?_insert table name value name
  rw [h, if_pos rfl] at hfound
  cases hfound

theorem nodup_keys_insert {table : Table α} (hn : (keys table).Nodup) (name : String) (value : α) :
    (keys (insert table name value)).Nodup := by
  rw [keys_insert]
  split
  next => exact hn
  next h =>
    rw [← List.concat_eq_append]
    exact hn.concat h

theorem insert_of_notMem {table : Table α} {name : String} (h : name ∉ keys table) (value : α) :
    insert table name value = table ++ [(name, value)] := by
  induction table with
  | nil => rfl
  | cons entry rest ih =>
    rw [keys_cons, List.mem_cons, not_or] at h
    simp only [insert, if_neg (Ne.symm h.1), ih h.2, List.cons_append]

theorem forall_mem_insert {P : String × α → Prop} {table : Table α} {name : String} {value : α}
    (ht : ∀ entry ∈ table, P entry) (hv : P (name, value)) :
    ∀ entry ∈ insert table name value, P entry := by
  induction table with
  | nil => simpa [insert] using hv
  | cons entry rest ih =>
    rw [List.forall_mem_cons] at ht
    obtain ⟨key, old⟩ := entry
    by_cases hk : key = name
    · simp only [insert, if_pos hk, List.forall_mem_cons]
      exact ⟨hk ▸ hv, ht.2⟩
    · simp only [insert, if_neg hk, List.forall_mem_cons]
      exact ⟨ht.1, ih ht.2⟩

/-- The added entries win over those already there. -/
theorem get?_insertAll {table added : Table α} (hn : (keys added).Nodup) (name : String) :
    get? (insertAll table added) name = (get? added name).or (get? table name) := by
  induction added generalizing table with
  | nil => rfl
  | cons entry rest ih =>
    rw [keys_cons, List.nodup_cons] at hn
    have hstep : get? (insertAll table (entry :: rest)) name =
        (get? rest name).or (get? (insert table entry.1 entry.2) name) := ih hn.2
    rw [hstep, get?_insert, get?_cons]
    by_cases hk : entry.1 = name
    · have hr : get? rest name = none := (get?_eq_none_iff _ _).mpr (hk ▸ hn.1)
      simp [hk, hr]
    · simp [hk]

theorem get?_insertAll_of_notMem {table added : Table α} {name : String}
    (h : name ∉ keys added) : get? (insertAll table added) name = get? table name := by
  induction added generalizing table with
  | nil => rfl
  | cons entry rest ih =>
    rw [keys_cons, List.mem_cons, not_or] at h
    rw [insertAll, List.foldl_cons]
    exact (ih h.2).trans ((get?_insert ..).trans (if_neg (Ne.symm h.1)))

/-- What is added later under other names does not matter. -/
theorem get?_insertAll_append (table front : Table α) {back : Table α} {name : String}
    (h : name ∉ keys back) :
    get? (insertAll table (front ++ back)) name = get? (insertAll table front) name := by
  rw [insertAll, List.foldl_append]
  exact get?_insertAll_of_notMem h

theorem nodup_keys_insertAll {table : Table α} (hn : (keys table).Nodup) (added : Table α) :
    (keys (insertAll table added)).Nodup := by
  induction added generalizing table with
  | nil => exact hn
  | cons entry rest ih => exact ih (nodup_keys_insert hn entry.1 entry.2)

theorem forall_mem_insertAll {P : String × α → Prop} {table added : Table α}
    (ht : ∀ entry ∈ table, P entry) (ha : ∀ entry ∈ added, P entry) :
    ∀ entry ∈ insertAll table added, P entry := by
  induction added generalizing table with
  | nil => exact ht
  | cons entry rest ih =>
    rw [List.forall_mem_cons] at ha
    exact ih (forall_mem_insert ht ha.1) ha.2

theorem keys_map (f : String × α → β) (table : Table α) :
    keys (table.map fun entry => (entry.1, f entry)) = keys table := by
  simp only [keys, List.map_map, Function.comp_def]

/-- A table is another one with its values changed just if it has the same keys and those values. -/
theorem eq_map_iff {f : α → β} {table : Table α} {other : Table β} :
    other = table.map (fun entry => (entry.1, f entry.2)) ↔
      keys other = keys table ∧ other.map Prod.snd = (table.map Prod.snd).map f := by
  have hkeys : keys (table.map fun entry => (entry.1, f entry.2)) = keys table :=
    keys_map _ table
  have hvalues : (table.map fun entry => (entry.1, f entry.2)).map Prod.snd =
      (table.map Prod.snd).map f := by
    rw [List.map_map, List.map_map]
    rfl
  constructor
  · rintro rfl
    exact ⟨hkeys, hvalues⟩
  · rintro ⟨hnames, hothers⟩
    exact (List.zip_of_prod hnames hothers).trans (List.zip_of_prod hkeys hvalues).symm

theorem contains_map (f : String × α → β) (table : Table α) (name : String) :
    contains (table.map fun entry => (entry.1, f entry)) name = contains table name := by
  rw [Bool.eq_iff_iff, contains_iff, contains_iff, keys_map]

theorem map_insert (f : α → β) (table : Table α) (name : String) (value : α) :
    (insert table name value).map (fun entry => (entry.1, f entry.2)) =
      insert (table.map fun entry => (entry.1, f entry.2)) name (f value) := by
  induction table with
  | nil => rfl
  | cons entry rest ih =>
    obtain ⟨key, old⟩ := entry
    by_cases hk : key = name
    · simp [insert, hk]
    · simp [insert, hk, ih]

theorem get?_map (f : String × α → β) (table : Table α) (name : String) :
    get? (table.map fun entry => (entry.1, f entry)) name =
      (get? table name).map fun value => f (name, value) := by
  induction table with
  | nil => rfl
  | cons entry rest ih =>
    rw [List.map_cons, get?_cons, get?_cons, ih]
    by_cases hk : entry.1 = name
    · subst hk; simp
    · simp [hk]

/-- A table made from a list of names. -/
theorem get?_filterMap (f : String → Option α) (names : List String) (name : String) :
    get? (names.filterMap fun key => (f key).map fun value => (key, value)) name =
      if name ∈ names then f name else none := by
  induction names with
  | nil => rfl
  | cons key rest ih =>
    rw [List.filterMap_cons]
    by_cases hk : key = name
    · subst hk
      cases hf : f key with
      | none => simp [ih, hf]
      | some value => simp [get?_cons]
    · have hmem : name ∈ key :: rest ↔ name ∈ rest := by simp [Ne.symm hk]
      cases hf : f key with
      | none => simp [ih, hmem]
      | some value => simp [get?_cons, hk, ih, hmem]

theorem nodup_keys_filterMap (f : String → Option α) {names : List String} (hn : names.Nodup) :
    (keys (names.filterMap fun key => (f key).map fun value => (key, value))).Nodup := by
  induction names with
  | nil => exact List.nodup_nil
  | cons key rest ih =>
    rw [List.nodup_cons] at hn
    rw [List.filterMap_cons]
    cases hf : f key with
    | none => exact ih hn.2
    | some value =>
      have hnew : key ∉ keys (rest.filterMap fun key => (f key).map fun value => (key, value)) := by
        rw [← get?_eq_none_iff, get?_filterMap, if_neg hn.1]
      exact List.nodup_cons.mpr ⟨hnew, ih hn.2⟩

theorem keys_filterMap (f : String → Option α) (names : List String) :
    keys (names.filterMap fun key => (f key).map fun value => (key, value)) =
      names.filter fun key => (f key).isSome := by
  induction names with
  | nil => rfl
  | cons key rest ih =>
    rw [List.filterMap_cons, List.filter_cons]
    cases hf : f key with
    | none => simpa using ih
    | some value => simpa using ih

theorem get?_names_map (f : String → α) (names : List String) (name : String) :
    get? (names.map fun key => (key, f key)) name =
      if name ∈ names then some (f name) else none := by
  rw [← get?_filterMap (fun key => some (f key)), ← List.filterMap_eq_map]
  rfl

theorem nodup_keys_filter {table : Table α} (hn : (keys table).Nodup) (p : String × α → Bool) :
    (keys (table.filter p)).Nodup :=
  hn.sublist (List.filter_sublist.map _)

theorem keys_filterMap_sublist {table : Table α}
    {change : String × α → Option (String × β)} {p : String → Bool}
    (h : ∀ entry kept, change entry = some kept → kept.1 = entry.1 ∧ p entry.1 = true) :
    (keys (table.filterMap change)).Sublist ((keys table).filter p) := by
  induction table with
  | nil => exact List.Sublist.refl _
  | cons entry rest ih =>
    rw [List.filterMap_cons, keys_cons]
    split
    next => exact ih.trans ((List.sublist_cons_self _ _).filter p)
    next kept hkept =>
      obtain ⟨hname, hp⟩ := h entry kept hkept
      rw [keys_cons, List.filter_cons_of_pos hp, hname]
      exact ih.cons_cons _

theorem get?_filter {table : Table α} (hn : (keys table).Nodup) (p : String × α → Bool)
    (name : String) :
    get? (table.filter p) name = (get? table name).filter fun value => p (name, value) := by
  apply Option.ext
  intro value
  rw [get?_eq_some_iff (nodup_keys_filter hn p), List.mem_filter, Option.filter_eq_some_iff,
    get?_eq_some_iff hn]

theorem keys_modify (change : α → α) (table : Table α) (name : String) :
    keys (modify change table name) = keys table := by
  induction table with
  | nil => rfl
  | cons entry rest ih =>
    obtain ⟨key, value⟩ := entry
    by_cases hk : key = name
    · simp [modify, hk]
    · simp [modify, hk, ih]

theorem modify_of_notMem {table : Table α} {name : String} (h : name ∉ keys table)
    (change : α → α) : modify change table name = table := by
  induction table with
  | nil => rfl
  | cons entry rest ih =>
    rw [keys_cons, List.mem_cons, not_or] at h
    simp only [modify, if_neg (Ne.symm h.1), ih h.2]

theorem modify_eq_map {table : Table α} (hn : (keys table).Nodup) (change : α → α)
    (name : String) :
    modify change table name =
      table.map fun entry => (entry.1, if entry.1 = name then change entry.2 else entry.2) := by
  induction table with
  | nil => rfl
  | cons entry rest ih =>
    obtain ⟨key, value⟩ := entry
    rw [keys_cons, List.nodup_cons] at hn
    rw [List.map_cons, ← ih hn.2]
    by_cases hk : key = name
    · have hrest : modify change rest name = rest := modify_of_notMem (hk ▸ hn.1) change
      simp only [modify, if_pos hk, hrest]
    · simp only [modify, if_neg hk]

theorem modify_congr {table : Table α} {name : String} {value : α} {change other : α → α}
    (hget : get? table name = some value) (h : change value = other value) :
    modify change table name = modify other table name := by
  induction table with
  | nil => rfl
  | cons entry rest ih =>
    obtain ⟨key, old⟩ := entry
    rw [get?_cons] at hget
    by_cases hk : key = name
    · rw [if_pos hk] at hget
      obtain rfl := Option.some.inj hget
      simp only [modify, if_pos hk, h]
    · rw [if_neg hk] at hget
      simp only [modify, if_neg hk, ih hget]

theorem modify_eq_self {table : Table α} {name : String} {value : α}
    (hget : get? table name = some value) : modify (fun _ => value) table name = table := by
  induction table with
  | nil => rfl
  | cons entry rest ih =>
    obtain ⟨key, old⟩ := entry
    rw [get?_cons] at hget
    by_cases hk : key = name
    · rw [if_pos hk] at hget
      obtain rfl := Option.some.inj hget
      simp only [modify, if_pos hk]
    · rw [if_neg hk] at hget
      simp only [modify, if_neg hk, ih hget]

/-- Entries under new names go to the end, in their order. -/
theorem foldl_insert {ι : Type} {key : ι → String} {value : ι → α} {items : List ι}
    {table : Table α} (hn : (keys table ++ items.map key).Nodup) :
    items.foldl (fun table item => insert table (key item) (value item)) table =
      table ++ items.map fun item => (key item, value item) := by
  induction items generalizing table with
  | nil => exact (List.append_nil _).symm
  | cons item rest ih =>
    have hnew : key item ∉ keys table := fun hm =>
      (List.nodup_append.mp hn).2.2 _ hm _ List.mem_cons_self rfl
    have hrest : (keys (table ++ [(key item, value item)]) ++ rest.map key).Nodup := by
      simpa using hn
    rw [List.foldl_cons, insert_of_notMem hnew, ih hrest, List.append_assoc]
    rfl

/-- Insertions into a table that is kept within something else. -/
theorem foldl_within {β ι : Type} (f : Table α → β) {step : β → ι → β} {key : ι → String}
    (value : ι → α)
    (hstep : ∀ table item, step (f table) item = f (insert table (key item) (value item)))
    {items : List ι} (hn : (items.map key).Nodup) {start : β} (hstart : start = f []) :
    items.foldl step start = f (items.map fun item => (key item, value item)) := by
  have hinsert : items.foldl (fun table item => insert table (key item) (value item)) [] =
      items.map fun item => (key item, value item) := foldl_insert hn
  rw [hstart, ← hinsert]
  exact List.foldl_hom f hstep

theorem insertAll_nil {added : Table α} (hn : (keys added).Nodup) : insertAll [] added = added := by
  have h : insertAll [] added = [] ++ added.map fun entry => (entry.1, entry.2) := foldl_insert hn
  rw [h, List.nil_append]
  exact List.map_id _

/-- With distinct keys the order of the entries does not matter. -/
theorem get?_perm {table other : Table α} (hn : (keys table).Nodup) (h : table.Perm other) :
    get? table = get? other := by
  have hn' : (keys other).Nodup := (h.map Prod.fst).nodup_iff.mp hn
  funext name
  apply Option.ext
  intro value
  rw [get?_eq_some_iff hn, get?_eq_some_iff hn', h.mem_iff]

/-- A table is known by its keys, in their order, and by what is found at each name. -/
theorem eq_of_get? {table other : Table α} (hkeys : keys table = keys other)
    (hn : (keys table).Nodup) (hget : ∀ name, get? table name = get? other name) :
    table = other := by
  induction table generalizing other with
  | nil => exact (List.map_eq_nil_iff.mp hkeys.symm).symm
  | cons entry rest ih =>
    cases other with
    | nil => cases hkeys
    | cons first others =>
      obtain ⟨hname, hrest⟩ := List.cons.inj hkeys
      change keys rest = keys others at hrest
      rw [keys_cons, List.nodup_cons] at hn
      have hfirst := hget entry.1
      rw [get?_cons, get?_cons, if_pos rfl, if_pos hname.symm] at hfirst
      have hothers : rest = others := ih hrest hn.2 fun name => by
        by_cases he : entry.1 = name
        · subst he
          have hnew : entry.1 ∉ keys others := hrest ▸ hn.1
          rw [(get?_eq_none_iff _ _).mpr hn.1, (get?_eq_none_iff _ _).mpr hnew]
        · have hsame := hget name
          rwa [get?_cons, get?_cons, if_neg he, if_neg (hname ▸ he)] at hsame
      rw [hothers, Prod.ext hname (Option.some.inj hfirst)]

section

variable {R : α → β → Prop} {table : Table α} {other : Table β}
  (h : List.Forall₂ (fun entry related => related.1 = entry.1 ∧ R entry.2 related.2) table other)

include h

theorem keys_forall₂ : keys other = keys table := by
  induction h with
  | nil => rfl
  | cons hentry _ ih => rw [keys_cons, keys_cons, hentry.1, ih]

theorem get?_forall₂ {name : String} {value : α} (hvalue : get? table name = some value) :
    ∃ related, get? other name = some related ∧ R value related := by
  induction h with
  | nil => cases hvalue
  | cons hentry _ ih =>
    rw [get?_cons] at hvalue
    rw [get?_cons, hentry.1]
    split at hvalue
    next he =>
      obtain rfl := Option.some.inj hvalue
      exact ⟨_, if_pos he, hentry.2⟩
    next hne =>
      rw [if_neg hne]
      exact ih hvalue

theorem keys_filter_forall₂ {p : String × α → Bool} {q : String × β → Bool}
    (hpq : ∀ entry related, R entry.2 related.2 → q related = p entry) :
    keys (other.filter q) = keys (table.filter p) := by
  induction h with
  | nil => rfl
  | @cons entry related _ _ hentry _ ih =>
    rw [List.filter_cons, List.filter_cons, hpq entry related hentry.2]
    split
    next => rw [keys_cons, keys_cons, hentry.1, ih]
    next => exact ih

end

theorem contains_congr {table other : Table α} (h : get? table = get? other) :
    contains table = contains other := by
  funext name
  rw [contains, contains, h]

theorem mem_values_iff {table : Table α} {value : α} :
    value ∈ values table ↔ ∃ name, (name, value) ∈ table := by
  simp [values]

end Schemata.Table
