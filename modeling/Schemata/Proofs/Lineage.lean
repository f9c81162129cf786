import Schemata.Catalog.Lineage
import Schemata.Proofs.Table

namespace Schemata.Catalog

variable {catalog : Catalog}

/-- A chain that starts with a type, goes on from each type to its parent, of the same kind, and
ends with one that has no parent. -/
inductive IsLineage (catalog : Catalog) : String → List String → Prop
  | root {name : String} {entry : TypeEntry} (found : catalog.get? name = some entry)
      (top : entry.parent = none) : IsLineage catalog name [name]
  | extend {name parent : String} {entry parentEntry : TypeEntry} {chain : List String}
      (found : catalog.get? name = some entry) (link : entry.parent = some parent)
      (parentFound : catalog.get? parent = some parentEntry)
      (kinds : parentEntry.kind = entry.kind) (rest : IsLineage catalog parent chain) :
      IsLineage catalog name (name :: chain)

namespace IsLineage

theorem exists_cons {name : String} {chain : List String} (h : IsLineage catalog name chain) :
    ∃ ancestors, chain = name :: ancestors := by
  cases h with
  | root => exact ⟨[], rfl⟩
  | extend => exact ⟨_, rfl⟩

theorem unique {name : String} {chain other : List String} (h : IsLineage catalog name chain)
    (h' : IsLineage catalog name other) : chain = other := by
  induction h generalizing other with
  | root found top =>
    cases h' with
    | root => rfl
    | extend found' link' =>
      obtain rfl := Option.some.inj (found.symm.trans found')
      rw [top] at link'
      cases link'
  | extend found link _ _ _ ih =>
    cases h' with
    | root found' top' =>
      obtain rfl := Option.some.inj (found.symm.trans found')
      rw [link] at top'
      cases top'
    | extend found' link' _ _ rest' =>
      obtain rfl := Option.some.inj (found.symm.trans found')
      obtain rfl := Option.some.inj (link.symm.trans link')
      rw [ih rest']

/-- The lineage of a type with a parent goes on with that of the parent. -/
theorem parent {name parent : String} {chain : List String} (h : IsLineage catalog name chain)
    {entry : TypeEntry} (hentry : catalog.get? name = some entry) (hparent : entry.parent = some parent) :
    ∃ rest, chain = name :: rest ∧ IsLineage catalog parent rest ∧
      ∃ found, catalog.get? parent = some found ∧ found.kind = entry.kind := by
  cases h with
  | root found top =>
    obtain rfl := Option.some.inj (found.symm.trans hentry)
    rw [hparent] at top
    cases top
  | extend found link parentFound kinds rest =>
    obtain rfl := Option.some.inj (found.symm.trans hentry)
    obtain rfl := Option.some.inj (link.symm.trans hparent)
    exact ⟨_, rfl, rest, _, parentFound, kinds⟩

/-- All types of a lineage are declared and of the kind of its first. -/
theorem declared {name : String} {chain : List String} (h : IsLineage catalog name chain)
    {entry : TypeEntry} (hentry : catalog.get? name = some entry) :
    ∀ type ∈ chain, ∃ found, catalog.get? type = some found ∧ found.kind = entry.kind := by
  induction h generalizing entry with
  | root =>
    intro type ht
    obtain rfl := List.mem_singleton.mp ht
    exact ⟨entry, hentry, rfl⟩
  | extend found _ parentFound kinds _ ih =>
    obtain rfl := Option.some.inj (found.symm.trans hentry)
    intro type ht
    rcases List.mem_cons.mp ht with rfl | ht
    · exact ⟨_, found, rfl⟩
    · obtain ⟨other, hother, hkind⟩ := ih parentFound type ht
      exact ⟨other, hother, hkind.trans kinds⟩

theorem exists_entry {name : String} {chain : List String} (h : IsLineage catalog name chain) :
    ∃ entry, catalog.get? name = some entry := by
  cases h with
  | root found => exact ⟨_, found⟩
  | extend found => exact ⟨_, found⟩

/-- From each of its types on, a lineage is that type's own. -/
theorem suffix {name type : String} {below above : List String}
    (h : IsLineage catalog name (below ++ type :: above)) :
    IsLineage catalog type (type :: above) := by
  induction below generalizing name with
  | nil =>
    obtain ⟨ancestors, he⟩ := h.exists_cons
    obtain rfl : type = name := (List.cons.inj he).1
    exact h
  | cons first below ih =>
    rw [List.cons_append] at h
    generalize he : below ++ type :: above = rest at h
    cases h with
    | root => simp at he
    | extend _ _ _ _ rest => exact ih (he ▸ rest)

theorem nodup {name : String} {chain : List String} (h : IsLineage catalog name chain) :
    chain.Nodup := by
  induction h with
  | root => exact List.pairwise_singleton ..
  | @extend name _ _ _ chain found link parentFound kinds rest ih =>
    refine List.nodup_cons.mpr ⟨fun hm => ?_, ih⟩
    obtain ⟨below, above, rfl⟩ := List.append_of_mem hm
    -- A type met again would start two lineages of different lengths.
    have he := (extend found link parentFound kinds rest).unique rest.suffix
    have hl := congrArg List.length he
    simp only [List.length_cons, List.length_append] at hl
    omega

theorem subset_keys {name : String} {chain : List String} (h : IsLineage catalog name chain) :
    chain ⊆ Table.keys catalog.types := by
  obtain ⟨entry, hentry⟩ := h.exists_entry
  intro type ht
  obtain ⟨found, hfound, _⟩ := h.declared hentry type ht
  exact Table.mem_keys_of_get? hfound

theorem length_le {name : String} {chain : List String} (h : IsLineage catalog name chain) :
    chain.length ≤ catalog.types.length := by
  simpa [Table.keys] using h.nodup.length_le_of_subset h.subset_keys

end IsLineage

theorem climb_of_isLineage {current : String} {rest : List String}
    (h : IsLineage catalog current (current :: rest)) {fuel : Nat} {chain : List String}
    {entry : TypeEntry} (hentry : catalog.get? current = some entry) (hfuel : rest.length ≤ fuel)
    (hnew : ∀ type ∈ rest, type ∉ chain) : catalog.climb fuel chain current entry = .ok (chain ++ rest) := by
  induction rest generalizing current fuel chain entry with
  | nil =>
    cases h with
    | root found top =>
      obtain rfl := Option.some.inj (found.symm.trans hentry)
      rw [climb, top, List.append_nil]
    | extend _ _ _ _ rest => obtain ⟨_, he⟩ := rest.exists_cons; cases he
  | cons next rest ih =>
    have hnodup := h.nodup
    cases h with
    | @extend _ parent _ parentEntry _ found link parentFound kinds tail =>
      obtain rfl := Option.some.inj (found.symm.trans hentry)
      obtain ⟨_, he⟩ := tail.exists_cons
      obtain rfl : next = parent := (List.cons.inj he).1
      -- The next type takes one unit of the budget, and the rest of the chain is one shorter.
      obtain ⟨fuel, rfl⟩ : ∃ less, fuel = less + 1 := ⟨fuel - 1, by simp at hfuel; omega⟩
      have hnext : next ∉ chain := hnew next List.mem_cons_self
      have hrest : ∀ type ∈ rest, type ∉ chain ++ [next] := by
        intro type ht
        have hne : type ≠ next := fun heq =>
          (List.nodup_cons.mp (List.nodup_cons.mp hnodup).2).1 (heq ▸ ht)
        simp [hne, hnew type (List.mem_cons_of_mem _ ht)]
      have hclimb := ih tail parentFound (Nat.le_of_succ_le_succ hfuel) hrest
      rw [climb, link]
      simp only [if_neg hnext, parentFound, kinds, ne_eq, not_true_eq_false, if_false, hclimb,
        List.append_assoc, List.singleton_append]

/-- The budget never ends a walk: the types on the way are distinct and declared. -/
theorem isLineage_of_climb {fuel : Nat} {chain full : List String} {current : String}
    {entry : TypeEntry} (h : catalog.climb fuel chain current entry = .ok full)
    (hentry : catalog.get? current = some entry) (hnodup : chain.Nodup)
    (hsub : chain ⊆ Table.keys catalog.types)
    (hfuel : catalog.types.length < chain.length + fuel) :
    ∃ rest, full = chain ++ rest ∧ IsLineage catalog current (current :: rest) := by
  induction fuel generalizing chain current entry with
  | zero =>
    -- Without a budget the chain would hold more types than are declared.
    have hlen := hnodup.length_le_of_subset hsub
    simp [Table.keys] at hlen
    omega
  | succ fuel ih =>
    rw [climb] at h
    split at h
    next top =>
      cases h
      exact ⟨[], (List.append_nil _).symm, .root hentry top⟩
    next parent link =>
      split at h
      next => cases h
      next hnew =>
        split at h
        next => cases h
        next parentEntry parentFound =>
          split at h
          next => cases h
          next kinds =>
            have hnodup' : (chain ++ [parent]).Nodup := by
              rw [← List.concat_eq_append]
              exact hnodup.concat hnew
            have hsub' : chain ++ [parent] ⊆ Table.keys catalog.types := by
              intro type ht
              rcases List.mem_append.mp ht with ht | ht
              · exact hsub ht
              · rw [List.mem_singleton.mp ht]
                exact Table.mem_keys_of_get? parentFound
            obtain ⟨rest, rfl, hrest⟩ := ih h parentFound hnodup' hsub' (by simp; omega)
            exact ⟨parent :: rest, by simp,
              .extend hentry link parentFound (Decidable.not_not.mp kinds) hrest⟩

theorem lineage_eq_ok_iff {name : String} {chain : List String} :
    catalog.lineage name = .ok chain ↔ IsLineage catalog name chain := by
  constructor
  · intro h
    rw [lineage] at h
    split at h
    next => cases h
    next entry hentry =>
      have hsub : [name] ⊆ Table.keys catalog.types := by
        simpa using Table.mem_keys_of_get? hentry
      obtain ⟨rest, rfl, hrest⟩ := isLineage_of_climb h hentry (List.pairwise_singleton ..) hsub
        (by simp)
      exact hrest
  · intro h
    obtain ⟨entry, hentry⟩ := h.exists_entry
    obtain ⟨rest, rfl⟩ := h.exists_cons
    have hnew : ∀ type ∈ rest, type ∉ [name] := by
      intro type ht hm
      exact (List.nodup_cons.mp h.nodup).1 (List.mem_singleton.mp hm ▸ ht)
    have hlen := h.length_le
    simp only [List.length_cons] at hlen
    simpa [lineage, hentry] using climb_of_isLineage h hentry (by omega) hnew

end Schemata.Catalog
