namespace Schemata

/-- Entries by name, in the order in which the names first appeared. -/
abbrev Table (α : Type) := List (String × α)

namespace Table

variable {α : Type}

def get? : Table α → String → Option α
  | [], _ => none
  | (key, value) :: rest, name => if key = name then some value else get? rest name

def contains (table : Table α) (name : String) : Bool :=
  (get? table name).isSome

/-- A new name goes to the end; a known one keeps its place and takes the new value. -/
def insert : Table α → String → α → Table α
  | [], name, value => [(name, value)]
  | (key, old) :: rest, name, value =>
    if key = name then (key, value) :: rest else (key, old) :: insert rest name value

def insertAll (table added : Table α) : Table α :=
  added.foldl (fun table entry => insert table entry.1 entry.2) table

def modify (change : α → α) : Table α → String → Table α
  | [], _ => []
  | (key, value) :: rest, name =>
    if key = name then (key, change value) :: rest else (key, value) :: modify change rest name

def keys (table : Table α) : List String :=
  table.map Prod.fst

def values (table : Table α) : List α :=
  table.map Prod.snd

@[simp] theorem get?_nil (name : String) : get? ([] : Table α) name = none := rfl

theorem get?_insert (table : Table α) (name : String) (value : α) (other : String) :
    get? (insert table name value) other = if name = other then some value else get? table other := by
  induction table with
  | nil => simp [insert, get?]
  | cons entry rest ih =>
    obtain ⟨key, old⟩ := entry
    by_cases hk : key = name
    · subst hk; by_cases ho : key = other <;> simp [insert, get?, ho]
    · by_cases ho : key = other
      · subst ho; simp [insert, get?, hk, Ne.symm hk]
      · simp [insert, get?, hk, ho, ih]

theorem keys_insert (table : Table α) (name : String) (value : α) :
    keys (insert table name value) =
      if name ∈ keys table then keys table else keys table ++ [name] := by
  induction table with
  | nil => simp [insert, keys]
  | cons entry rest ih =>
    obtain ⟨key, old⟩ := entry
    by_cases hk : key = name
    · subst hk; simp [insert, keys]
    · have hne : ¬name = key := Ne.symm hk
      simp only [keys] at ih
      by_cases hm : name ∈ rest.map Prod.fst <;>
        simp_all [insert, keys]

theorem get?_eq_none_iff (table : Table α) (name : String) :
    get? table name = none ↔ name ∉ keys table := by
  induction table with
  | nil => simp [keys]
  | cons entry rest ih =>
    obtain ⟨key, old⟩ := entry
    by_cases hk : key = name
    · simp [get?, keys, hk]
    · have hne : ¬name = key := Ne.symm hk
      simp only [keys] at ih
      simp [get?, keys, hk, hne, ih]

end Table

end Schemata
