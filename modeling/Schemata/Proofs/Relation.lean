import Schemata.Interface.Relation
import Schemata.Proofs.Flattening

namespace Schemata

theorem mergeNames_append (names added more : List String) :
    mergeNames names (added ++ more) = mergeNames (mergeNames names added) more :=
  List.foldl_append

theorem mergeNames_concat (names added : List String) (name : String) :
    mergeNames names (added ++ [name]) =
      if name ∈ mergeNames names added then mergeNames names added
      else mergeNames names added ++ [name] := by
  rw [mergeNames_append]
  rfl

theorem mergeNames_eq (names added : List String) :
    mergeNames names added =
      names ++ (added.filter fun name => decide (name ∉ names)).eraseDups := by
  induction added using List.reverseRecOn with
  | nil => simp [mergeNames]
  | append_singleton added last ih =>
    rw [mergeNames_concat, ih, List.filter_append, List.eraseDups_append, ← List.append_assoc]
    -- The last name is new if it is neither among the first ones nor added before.
    by_cases hnames : last ∈ names
    · simp [hnames]
    · by_cases hadded : last ∈ added <;>
        simp [hnames, hadded, List.removeAll, List.eraseDups_cons]

theorem mem_mergeNames {names added : List String} {name : String} :
    name ∈ mergeNames names added ↔ name ∈ names ∨ name ∈ added := by
  induction added using List.reverseRecOn with
  | nil => simp [mergeNames]
  | append_singleton added last ih =>
    rw [mergeNames_concat, List.mem_append, List.mem_singleton, ← or_assoc, ← ih]
    split
    next h => exact ⟨Or.inl, fun ho => ho.elim id fun he => he ▸ h⟩
    next => rw [List.mem_append, List.mem_singleton]

theorem nodup_mergeNames {names : List String} (hn : names.Nodup) (added : List String) :
    (mergeNames names added).Nodup := by
  induction added using List.reverseRecOn with
  | nil => exact hn
  | append_singleton added last ih =>
    rw [mergeNames_concat]
    split
    next => exact ih
    next h =>
      rw [← List.concat_eq_append]
      exact ih.concat h

namespace Catalog

variable {catalog : Catalog}

theorem implementedBy_eq_ok_iff {type interface : String} {names : List String} :
    catalog.implementedBy type interface = .ok names ↔
      (∃ entry, catalog.get? interface = some entry ∧ entry.kind = .interface) ∧
        IsLineage catalog interface names := by
  rw [implementedBy]
  split
  next h => simp [h]
  next entry h =>
    split
    next hk => simp [h, hk]
    next hk => simp [h, Decidable.not_not.mp hk, lineage_eq_ok_iff]

theorem mem_implementsClauses {chain : List String} {type interface : String} :
    (type, interface) ∈ catalog.implementsClauses chain ↔
      type ∈ chain ∧ ∃ entry, catalog.get? type = some entry ∧ interface ∈ entry.interfaces := by
  rw [implementsClauses, List.mem_flatMap]
  constructor
  · rintro ⟨other, hother, hm⟩
    split at hm
    next entry hentry =>
      obtain ⟨found, hfound, he⟩ := List.mem_map.mp hm
      obtain ⟨rfl, rfl⟩ := Prod.mk.inj he
      exact ⟨hother, entry, hentry, hfound⟩
    next => cases hm
  · rintro ⟨htype, entry, hentry, hm⟩
    refine ⟨type, htype, ?_⟩
    rw [hentry]
    exact List.mem_map.mpr ⟨interface, hm, rfl⟩

def derivedInterfaces (catalog : Catalog) (chain : List String) : List String :=
  mergeNames [] ((catalog.implementsClauses chain).flatMap fun clause => catalog.ancestry clause.2)

theorem foldl_merge {merge : List String → Except Problem (List String) → List String}
    (hmerge : ∀ derived names, merge derived (.ok names) = mergeNames derived names)
    {clauses : List (String × String)} {derived : List String}
    (h : ∀ clause ∈ clauses, ∃ names, catalog.implementedBy clause.1 clause.2 = .ok names) :
    (clauses.map fun clause => catalog.implementedBy clause.1 clause.2).foldl merge derived =
      mergeNames derived (clauses.flatMap fun clause => catalog.ancestry clause.2) := by
  induction clauses generalizing derived with
  | nil => rfl
  | cons clause rest ih =>
    rw [List.forall_mem_cons] at h
    obtain ⟨⟨names, hnames⟩, hrest⟩ := h
    have hancestry := (implementedBy_eq_ok_iff.mp hnames).2.ancestry_eq
    rw [List.map_cons, List.foldl_cons, hnames, hmerge, List.flatMap_cons, hancestry,
      mergeNames_append]
    exact ih hrest

def clauseProblems (catalog : Catalog) (chain : List String) : List Problem :=
  (catalog.implementsClauses chain).filterMap fun clause =>
    problemOf (catalog.implementedBy clause.1 clause.2)

theorem clauseProblems_eq_nil_iff {chain : List String} :
    catalog.clauseProblems chain = [] ↔ ∀ clause ∈ catalog.implementsClauses chain,
      ∃ names, catalog.implementedBy clause.1 clause.2 = .ok names := by
  simp only [clauseProblems, List.filterMap_eq_nil_iff, problemOf_eq_none_iff]

theorem interfacesOf_of_isLineage {object : String} {chain : List String}
    (h : IsLineage catalog object chain) :
    catalog.interfacesOf object =
      if catalog.clauseProblems chain = [] then .ok (catalog.derivedInterfaces chain)
      else .error (catalog.clauseProblems chain) := by
  -- The function that picks the problems has no name, so it is known by what it does.
  have hproblems (pick : Except Problem (List String) → Option Problem)
      (hpick : ∀ result, pick result = problemOf result) :
      ((catalog.implementsClauses chain).map fun clause =>
        catalog.implementedBy clause.1 clause.2).filterMap pick = catalog.clauseProblems chain := by
    rw [List.filterMap_map]
    exact List.filterMap_congr fun clause _ => hpick _
  rw [interfacesOf, lineage_eq_ok_iff.mpr h]
  dsimp only
  rw [hproblems]
  · simp only [List.isEmpty_iff]
    split
    next he =>
      rw [foldl_merge (fun _ _ => rfl) (clauseProblems_eq_nil_iff.mp he), derivedInterfaces]
    next => rfl
  · intro result
    cases result <;> rfl

theorem interfacesOf_eq_ok_iff {object : String} {interfaces : List String} :
    catalog.interfacesOf object = .ok interfaces ↔
      ∃ chain, IsLineage catalog object chain ∧
        (∀ clause ∈ catalog.implementsClauses chain,
          ∃ names, catalog.implementedBy clause.1 clause.2 = .ok names) ∧
        interfaces = catalog.derivedInterfaces chain := by
  constructor
  · intro h
    cases hl : catalog.lineage object with
    | error problem =>
      rw [interfacesOf, hl] at h
      cases h
    | ok chain =>
      have hchain := lineage_eq_ok_iff.mp hl
      rw [interfacesOf_of_isLineage hchain] at h
      split at h
      next he => exact ⟨chain, hchain, clauseProblems_eq_nil_iff.mp he, (Except.ok.inj h).symm⟩
      next => cases h
  · rintro ⟨chain, hchain, hall, rfl⟩
    rw [interfacesOf_of_isLineage hchain, if_pos (clauseProblems_eq_nil_iff.mpr hall)]

theorem ne_nil_of_interfacesOf_error {object : String} {found : List Problem}
    (h : catalog.interfacesOf object = .error found) : found ≠ [] := by
  cases hl : catalog.lineage object with
  | error problem =>
    rw [interfacesOf, hl] at h
    cases h
    exact List.cons_ne_nil _ _
  | ok chain =>
    rw [interfacesOf_of_isLineage (lineage_eq_ok_iff.mp hl)] at h
    split at h
    next => cases h
    next he =>
      cases h
      exact he

theorem interfacesOf_nodup {object : String} {interfaces : List String}
    (h : catalog.interfacesOf object = .ok interfaces) : interfaces.Nodup := by
  obtain ⟨chain, -, -, rfl⟩ := interfacesOf_eq_ok_iff.mp h
  exact nodup_mergeNames List.nodup_nil _

theorem mem_derivedInterfaces {chain : List String} {name : String} :
    name ∈ catalog.derivedInterfaces chain ↔
      ∃ type ∈ chain, ∃ entry, catalog.get? type = some entry ∧
        ∃ interface ∈ entry.interfaces, name ∈ catalog.ancestry interface := by
  simp only [derivedInterfaces, mem_mergeNames, List.not_mem_nil, false_or, List.mem_flatMap,
    Prod.exists, mem_implementsClauses]
  constructor
  · rintro ⟨type, interface, ⟨htype, entry, hentry, hm⟩, hname⟩
    exact ⟨type, htype, entry, hentry, interface, hm, hname⟩
  · rintro ⟨type, htype, entry, hentry, interface, hm, hname⟩
    exact ⟨type, interface, ⟨htype, entry, hentry, hm⟩, hname⟩

/-- Only declared interfaces are ever derived. -/
theorem interface_of_mem_interfacesOf {object name : String} {interfaces : List String}
    (h : catalog.interfacesOf object = .ok interfaces) (hm : name ∈ interfaces) :
    ∃ entry, catalog.get? name = some entry ∧ entry.kind = .interface := by
  obtain ⟨chain, -, hall, rfl⟩ := interfacesOf_eq_ok_iff.mp h
  obtain ⟨type, htype, entry, hentry, interface, hi, hname⟩ := mem_derivedInterfaces.mp hm
  obtain ⟨names, hnames⟩ := hall (type, interface)
    (mem_implementsClauses.mpr ⟨htype, entry, hentry, hi⟩)
  obtain ⟨⟨found, hfound, hkind⟩, hlineage⟩ := implementedBy_eq_ok_iff.mp hnames
  rw [hlineage.ancestry_eq] at hname
  obtain ⟨other, hother, hsame⟩ := hlineage.declared hfound name hname
  exact ⟨other, hother, hsame.trans hkind⟩

end Catalog

end Schemata
