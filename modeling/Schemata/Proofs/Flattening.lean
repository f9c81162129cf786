import Mathlib.Data.List.Induction
import Schemata.Catalog.Flattening
import Schemata.Proofs.Lineage
import Schemata.Proofs.Problem

namespace Schemata

namespace FieldSet

/-- Entries stand under the names of their declarations, one for each name. -/
structure WellKeyed (fields : FieldSet) : Prop where
  named : ∀ entry ∈ fields, entry.2.declaration.name = entry.1
  nodup : (Table.keys fields).Nodup

namespace WellKeyed

theorem nil : WellKeyed [] := ⟨by simp, List.nodup_nil⟩

theorem insert {fields : FieldSet} (h : WellKeyed fields) {name : String} {seen : SeenField}
    (hname : seen.declaration.name = name) : WellKeyed (Table.insert fields name seen) :=
  ⟨Table.forall_mem_insert h.named hname, Table.nodup_keys_insert h.nodup _ _⟩

theorem insertAll {fields added : FieldSet} (h : WellKeyed fields) (ha : WellKeyed added) :
    WellKeyed (Table.insertAll fields added) :=
  ⟨Table.forall_mem_insertAll h.named ha.named, Table.nodup_keys_insertAll h.nodup _⟩

theorem overlay {fields : FieldSet} (h : WellKeyed fields) (owner : String)
    (own : List FieldDeclaration) : WellKeyed (fields.overlay owner own) := by
  induction own generalizing fields with
  | nil => exact h
  | cons field rest ih => exact ih (h.insert rfl)

end WellKeyed

theorem overlay_append (fields : FieldSet) (owner : String) (own : List FieldDeclaration)
    (field : FieldDeclaration) :
    fields.overlay owner (own ++ [field]) =
      Table.insert (fields.overlay owner own) field.name ⟨owner, field⟩ := by
  simp only [overlay, List.foldl_concat]

/-- An own field hides an inherited one of its name, and the last own field of a name the others. -/
theorem get?_overlay (fields : FieldSet) (owner : String) (own : List FieldDeclaration)
    (name : String) :
    Table.get? (fields.overlay owner own) name =
      ((own.reverse.find? (·.name = name)).map (SeenField.mk owner)).or (Table.get? fields name) := by
  induction own using List.reverseRecOn with
  | nil => rfl
  | append_singleton own field ih =>
    rw [overlay_append, Table.get?_insert, ih, List.reverse_append, List.reverse_singleton,
      List.singleton_append, List.find?_cons]
    by_cases hn : field.name = name <;> simp [hn]

end FieldSet

namespace Catalog

variable {catalog : Catalog}

/-- The fields along a chain: those of the ancestors, overlaid with the own ones. -/
def chainFields (catalog : Catalog) : List String → FieldSet
  | [] => []
  | type :: ancestors =>
    match catalog.get? type with
    | some entry => (catalog.chainFields ancestors).overlay type entry.fields
    | none => catalog.chainFields ancestors

/-- The last field of a name that a type itself declares. -/
def lastDeclared (catalog : Catalog) (field type : String) : Option SeenField :=
  (catalog.get? type).bind fun entry =>
    (entry.fields.reverse.find? (·.name = field)).map (SeenField.mk type)

theorem chainFields_wellKeyed (chain : List String) : (catalog.chainFields chain).WellKeyed := by
  induction chain with
  | nil => exact .nil
  | cons type ancestors ih =>
    rw [chainFields]
    split
    next entry _ => exact ih.overlay type entry.fields
    next => exact ih

theorem get?_chainFields (chain : List String) (field : String) :
    Table.get? (catalog.chainFields chain) field = chain.findSome? (catalog.lastDeclared field) := by
  induction chain with
  | nil => rfl
  | cons type ancestors ih =>
    rw [chainFields, List.findSome?_cons, lastDeclared]
    split
    next entry hentry =>
      rw [FieldSet.get?_overlay, ih, hentry, Option.bind_some]
      cases (entry.fields.reverse.find? (·.name = field)).map (SeenField.mk type) <;> rfl
    next hentry => rw [ih, hentry, Option.bind_none]

theorem declared_of_lastDeclared {field type : String} {seen : SeenField}
    (h : catalog.lastDeclared field type = some seen) :
    seen.owner = type ∧ seen.declaration.name = field ∧
      ∃ entry, catalog.get? type = some entry ∧ seen.declaration ∈ entry.fields := by
  obtain ⟨entry, hentry, hfound⟩ := Option.bind_eq_some_iff.mp h
  obtain ⟨declaration, hdeclaration, rfl⟩ := Option.map_eq_some_iff.mp hfound
  have hname := List.find?_some hdeclaration
  have hmem := List.mem_of_find?_eq_some hdeclaration
  exact ⟨rfl, of_decide_eq_true hname, entry, hentry, List.mem_reverse.mp hmem⟩

/-- A field seen from a chain is declared by one of its types. -/
theorem owner_mem_chain {chain : List String} {name : String} {seen : SeenField}
    (h : Table.get? (catalog.chainFields chain) name = some seen) : seen.owner ∈ chain := by
  rw [get?_chainFields] at h
  obtain ⟨type, htype, hdeclared⟩ := List.exists_of_findSome?_eq_some h
  rwa [(declared_of_lastDeclared hdeclared).1]

/-- Every cached set is that of its type's lineage. -/
def CacheSound (catalog : Catalog) (cache : FieldCache) : Prop :=
  ∀ name fields, Table.get? cache name = some fields →
    ∃ chain, IsLineage catalog name chain ∧ fields = catalog.chainFields chain

theorem cacheSound_nil : CacheSound catalog [] := by
  intro name fields h
  cases h

theorem CacheSound.insert {cache : FieldCache} (h : CacheSound catalog cache) {name : String}
    {chain : List String} (hchain : IsLineage catalog name chain) :
    CacheSound catalog (Table.insert cache name (catalog.chainFields chain)) := by
  intro other fields ho
  rw [Table.get?_insert] at ho
  split at ho
  next he => exact ⟨chain, he ▸ hchain, (Option.some.inj ho).symm⟩
  next => exact h other fields ho

/-- `above` is the part of the chain that has been walked. The sets met or made on the way are those
of lineages, because every part of a lineage up to its root is one. -/
theorem descend_sound {name : String} {below above : List String} {cache : FieldCache}
    (hchain : IsLineage catalog name (below ++ above)) (hcache : CacheSound catalog cache) :
    (catalog.descend below.reverse (catalog.chainFields above) cache).1 =
        catalog.chainFields (below ++ above) ∧
      CacheSound catalog (catalog.descend below.reverse (catalog.chainFields above) cache).2 := by
  induction below using List.reverseRecOn generalizing above cache with
  | nil => exact ⟨rfl, hcache⟩
  | append_singleton below type ih =>
    rw [List.append_assoc, List.singleton_append] at hchain ⊢
    rw [List.reverse_append, List.reverse_singleton, List.singleton_append, descend]
    have htype : IsLineage catalog type (type :: above) := hchain.suffix
    split
    next known hknown =>
      -- The cached set is that of some lineage of the type, and a type has only one.
      obtain ⟨chain, hc, rfl⟩ := hcache type known hknown
      obtain rfl := htype.unique hc
      exact ih hchain hcache
    next =>
      obtain ⟨entry, hentry⟩ := htype.exists_entry
      have hfields : (catalog.chainFields above).overlay type entry.fields =
          catalog.chainFields (type :: above) := by rw [chainFields, hentry]
      simp only [hentry, hfields]
      exact ih hchain (hcache.insert htype)

theorem fieldsOf_sound {cache : FieldCache} (hcache : CacheSound catalog cache) (name : String) :
    (catalog.fieldsOf cache name).1 = (catalog.lineage name).map catalog.chainFields ∧
      CacheSound catalog (catalog.fieldsOf cache name).2 := by
  rw [fieldsOf]
  split
  next known hknown =>
    obtain ⟨chain, hchain, rfl⟩ := hcache name known hknown
    rw [lineage_eq_ok_iff.mpr hchain]
    exact ⟨rfl, hcache⟩
  next =>
    split
    next problem hl => exact ⟨by rw [hl]; rfl, hcache⟩
    next chain hl =>
      have hchain := lineage_eq_ok_iff.mp hl
      rw [← List.append_nil chain] at hchain
      obtain ⟨hfields, hsound⟩ := descend_sound hchain hcache
      rw [List.append_nil] at hfields
      exact ⟨by rw [hl]; exact congrArg Except.ok hfields, hsound⟩

theorem fieldsOfEach_sound {cache : FieldCache} (hcache : CacheSound catalog cache)
    (names : List String) :
    (catalog.fieldsOfEach names cache).1 =
      names.map fun name => (catalog.lineage name).map catalog.chainFields := by
  induction names generalizing cache with
  | nil => rfl
  | cons name rest ih =>
    obtain ⟨hanswer, hsound⟩ := fieldsOf_sound hcache name
    rw [List.map_cons, ← hanswer, ← ih hsound]
    rfl

def freshFields (catalog : Catalog) (name : String) : Except Problem FieldSet :=
  (catalog.fieldsOf [] name).1

theorem freshFields_eq (name : String) :
    catalog.freshFields name = (catalog.lineage name).map catalog.chainFields :=
  (fieldsOf_sound cacheSound_nil name).1

theorem freshFields_of_isLineage {name : String} {chain : List String}
    (h : IsLineage catalog name chain) : catalog.freshFields name = .ok (catalog.chainFields chain) := by
  rw [freshFields_eq, lineage_eq_ok_iff.mpr h]
  rfl

/-- The fields of a type are its parent's, overlaid with its own. -/
theorem freshFields_recursion {name : String} {chain : List String}
    (h : catalog.lineage name = .ok chain) :
    ∃ (entry : TypeEntry) (inherited : FieldSet), catalog.get? name = some entry ∧
      (match entry.parent with
        | none => inherited = []
        | some parent => catalog.freshFields parent = .ok inherited) ∧
      catalog.freshFields name = .ok (inherited.overlay name entry.fields) := by
  have hchain := lineage_eq_ok_iff.mp h
  have hfresh := freshFields_of_isLineage hchain
  cases hchain with
  | @root _ entry found top =>
    refine ⟨entry, [], found, by rw [top], ?_⟩
    rw [hfresh, chainFields, found, chainFields]
  | @extend _ parent entry _ rest found link _ _ tail =>
    refine ⟨entry, catalog.chainFields rest, found, ?_, ?_⟩
    · rw [link]
      exact freshFields_of_isLineage tail
    · rw [hfresh, chainFields, found]

def ancestry (catalog : Catalog) (name : String) : List String :=
  (catalog.lineage name).toOption.getD []

theorem IsLineage.ancestry_eq {name : String} {chain : List String}
    (h : IsLineage catalog name chain) : catalog.ancestry name = chain := by
  rw [ancestry, lineage_eq_ok_iff.mpr h]
  rfl

def flattened (catalog : Catalog) : Table FieldSet :=
  catalog.types.map fun entry => (entry.1, catalog.chainFields (catalog.ancestry entry.1))

theorem foldl_flattenStep (catalog : Catalog) (names : List String) (state : Flattening)
    (hcache : CacheSound catalog state.cache)
    (hn : (Table.keys state.resolved ++ names).Nodup) :
    (names.foldl catalog.flattenStep state).resolved =
        state.resolved ++ names.filterMap (fun name =>
          (catalog.lineage name).toOption.map fun chain => (name, catalog.chainFields chain)) ∧
      (names.foldl catalog.flattenStep state).problems =
        noteAll state.problems (names.filterMap fun name => problemOf (catalog.lineage name)) := by
  induction names generalizing state with
  | nil => exact ⟨(List.append_nil _).symm, rfl⟩
  | cons name rest ih =>
    obtain ⟨hanswer, hsound⟩ := fieldsOf_sound hcache name
    rcases hf : catalog.fieldsOf state.cache name with ⟨answer, cache⟩
    simp only [hf] at hanswer hsound
    -- Each type is flattened once, so its set goes to the end.
    have hnew : name ∉ Table.keys state.resolved := fun hm =>
      (List.nodup_append.mp hn).2.2 name hm name List.mem_cons_self rfl
    rw [List.foldl_cons, List.filterMap_cons, List.filterMap_cons, flattenStep, hf]
    cases hl : catalog.lineage name with
    | error problem =>
      obtain rfl : answer = .error problem := by rw [hanswer, hl]; rfl
      exact ih _ hsound (hn.sublist ((List.sublist_cons_self _ _).append_left _))
    | ok chain =>
      obtain rfl : answer = .ok (catalog.chainFields chain) := by rw [hanswer, hl]; rfl
      have hstep := ih { state with
        cache := cache
        resolved := Table.insert state.resolved name (catalog.chainFields chain) } hsound
      simp only [Table.insert_of_notMem hnew, Table.keys_append, Table.keys_cons, Table.keys_nil,
        List.append_assoc, List.singleton_append] at hstep ⊢
      exact hstep hn

theorem allFields_eq_ok_iff (hn : (Table.keys catalog.types).Nodup) {fields : Table FieldSet} :
    catalog.allFields = .ok fields ↔
      (∀ name ∈ Table.keys catalog.types, ∃ chain, IsLineage catalog name chain) ∧
        fields = catalog.flattened := by
  obtain ⟨hresolved, hproblems⟩ := foldl_flattenStep catalog (Table.keys catalog.types) {} cacheSound_nil hn
  rw [allFields, unlessProblems_eq_ok_iff, hresolved, hproblems, noteAll_eq_nil_iff]
  simp only [true_and, List.filterMap_eq_nil_iff, problemOf_eq_none_iff, lineage_eq_ok_iff,
    List.nil_append]
  apply and_congr_right
  intro hall
  have hmap : (Table.keys catalog.types).filterMap (fun name =>
      (catalog.lineage name).toOption.map fun chain => (name, catalog.chainFields chain)) =
        catalog.flattened := by
    rw [flattened, ← List.filterMap_eq_map, Table.keys, List.filterMap_map]
    apply List.filterMap_congr
    intro entry hentry
    obtain ⟨chain, hchain⟩ := hall entry.1 (List.mem_map.mpr ⟨entry, hentry, rfl⟩)
    simp [hchain.ancestry_eq, lineage_eq_ok_iff.mpr hchain, Except.toOption]
  rw [hmap, eq_comm]

theorem get?_flattened (name : String) :
    Table.get? catalog.flattened name =
      (catalog.get? name).map fun _ => catalog.chainFields (catalog.ancestry name) :=
  Table.get?_map _ _ _

theorem wellKeyed_of_flattened {name : String} {fields : FieldSet}
    (h : Table.get? catalog.flattened name = some fields) : fields.WellKeyed := by
  rw [get?_flattened] at h
  obtain ⟨_, _, rfl⟩ := Option.map_eq_some_iff.mp h
  exact chainFields_wellKeyed _

/-- Whatever was asked before, a question is answered as by a fresh cache, and a question that fails
leaves no trace. The fresh answer obeys the recursion along parent links, in which an own field keeps
the place of the field it replaces; so it holds the declaration nearest along the chain. -/
theorem fieldsOfEach_eq_fresh (catalog : Catalog) :
    (∀ asked, (catalog.fieldsOfEach asked []).1 = asked.map catalog.freshFields) ∧
    (∀ name problem, catalog.lineage name = .error problem →
      catalog.freshFields name = .error problem) ∧
    (∀ name chain, catalog.lineage name = .ok chain →
      ∃ (entry : TypeEntry) (inherited : FieldSet), catalog.get? name = some entry ∧
        (match entry.parent with
          | none => inherited = []
          | some parent => catalog.freshFields parent = .ok inherited) ∧
        catalog.freshFields name = .ok (inherited.overlay name entry.fields)) ∧
    (∀ (inherited : FieldSet) owner, inherited.overlay owner [] = inherited ∧
      ∀ own field, let before := inherited.overlay owner own
        let after := inherited.overlay owner (own ++ [field])
        Table.keys after = (if field.name ∈ Table.keys before then Table.keys before
          else Table.keys before ++ [field.name]) ∧
        ∀ name, Table.get? after name =
          if field.name = name then some ⟨owner, field⟩ else Table.get? before name) ∧
    (∀ name chain fields field, catalog.lineage name = .ok chain →
      catalog.freshFields name = .ok fields →
      Table.get? fields field = chain.findSome? (catalog.lastDeclared field)) ∧
    (∀ before name problem after, catalog.lineage name = .error problem →
      (catalog.fieldsOfEach (before ++ name :: after) []).1 =
        (catalog.fieldsOfEach before []).1 ++ .error problem ::
          (catalog.fieldsOfEach (before ++ after) []).1.drop before.length) := by
  have hall (asked : List String) :
      (catalog.fieldsOfEach asked []).1 = asked.map catalog.freshFields := by
    rw [fieldsOfEach_sound cacheSound_nil]
    exact List.map_congr_left fun name _ => (freshFields_eq name).symm
  have herror (name : String) (problem : Problem) (h : catalog.lineage name = .error problem) :
      catalog.freshFields name = .error problem := by
    rw [freshFields_eq, h]
    rfl
  refine ⟨hall, herror, fun _ _ => freshFields_recursion, ?_, ?_, ?_⟩
  · intro inherited owner
    refine ⟨rfl, fun own field => ?_⟩
    simp only [FieldSet.overlay_append]
    exact ⟨Table.keys_insert .., fun name => Table.get?_insert ..⟩
  · intro name chain fields field hl hfields
    rw [freshFields_of_isLineage (lineage_eq_ok_iff.mp hl)] at hfields
    cases hfields
    exact get?_chainFields chain field
  · intro before name problem after h
    simp only [hall, List.map_append, List.map_cons, herror name problem h]
    rw [List.drop_left' (List.length_map _)]

def litter : Catalog :=
  let entry (parent : Option String) (fields : List FieldDeclaration) : TypeEntry :=
    ⟨.interface, none, parent, [], fields, none, none⟩
  let text : TypeExpr := .named (.literal "String")
  { types :=
      [("Animal", entry (some "Node") [.new "sound" text, .new "id" (.nonNull text)]),
        ("Node", entry none [.new "id" text]), ("Stray", entry (some "Ghost") [])] }

theorem fieldsOfEach_eq_fresh_litter :
    (litter.fieldsOfEach ["Animal", "Stray", "Node"] []).1 =
      ["Animal", "Stray", "Node"].map litter.freshFields ∧
    litter.freshFields "Stray" = .error (.undeclaredType "Ghost" (.extendsClause "Stray")) ∧
    ∃ fields, litter.freshFields "Animal" = .ok fields ∧
      Table.get? fields "id" = ["Animal", "Node"].findSome? (litter.lastDeclared "id") := by
  obtain ⟨hall, herror, -, -, hnearest, -⟩ := fieldsOfEach_eq_fresh litter
  have hanimal : litter.lineage "Animal" = .ok ["Animal", "Node"] := by decide
  have hstray : litter.lineage "Stray" = .error (.undeclaredType "Ghost" (.extendsClause "Stray")) := by
    decide
  have hfields := freshFields_of_isLineage (lineage_eq_ok_iff.mp hanimal)
  exact ⟨hall _, herror _ _ hstray, _, hfields, hnearest _ _ _ _ hanimal hfields⟩

end Catalog

end Schemata
