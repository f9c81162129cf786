import Mathlib.Data.List.Chain
import Schemata.Proofs.Lineage

namespace Schemata.Catalog

variable {catalog : Catalog}

def parentOf (catalog : Catalog) (type : String) : Option String :=
  (catalog.get? type).bind TypeEntry.parent

/-- A link that can be followed: it joins two declared types of one kind. -/
def Links (catalog : Catalog) (type parent : String) : Prop :=
  ∃ entry parentEntry, catalog.get? type = some entry ∧ entry.parent = some parent ∧
    catalog.get? parent = some parentEntry ∧ parentEntry.kind = entry.kind

/-- A declared type where parent links end. -/
def IsTop (catalog : Catalog) (type : String) : Prop :=
  ∃ entry, catalog.get? type = some entry ∧ entry.parent = none

theorem parentOf_of_get? {type : String} {entry : TypeEntry} (h : catalog.get? type = some entry) :
    catalog.parentOf type = entry.parent := by
  rw [parentOf, h, Option.bind_some]

theorem Links.parentOf_eq {type parent : String} (h : catalog.Links type parent) :
    catalog.parentOf type = some parent := by
  obtain ⟨entry, _, found, link, -⟩ := h
  rw [parentOf_of_get? found, link]

theorem Links.unique {type parent other : String} (h : catalog.Links type parent)
    (h' : catalog.Links type other) : parent = other :=
  Option.some.inj (h.parentOf_eq.symm.trans h'.parentOf_eq)

theorem IsTop.parentOf_eq {type : String} (h : catalog.IsTop type) :
    catalog.parentOf type = none := by
  obtain ⟨entry, found, top⟩ := h
  rw [parentOf_of_get? found, top]

namespace IsLineage

theorem linked {name : String} {chain : List String} (h : IsLineage catalog name chain) :
    chain.IsChain catalog.Links := by
  induction h with
  | root => exact .singleton _
  | extend found link parentFound kinds rest ih =>
    obtain ⟨ancestors, rfl⟩ := rest.exists_cons
    exact .cons_cons ⟨_, _, found, link, parentFound, kinds⟩ ih

theorem exists_top {name : String} {chain : List String} (h : IsLineage catalog name chain) :
    ∃ top, chain.getLast? = some top ∧ catalog.IsTop top ∧
      Relation.ReflTransGen catalog.Links name top := by
  induction h with
  | root found top => exact ⟨_, rfl, ⟨_, found, top⟩, .refl⟩
  | extend found link parentFound kinds rest ih =>
    obtain ⟨top, hlast, htop, hpath⟩ := ih
    obtain ⟨ancestors, rfl⟩ := rest.exists_cons
    exact ⟨top, hlast, htop, .head ⟨_, _, found, link, parentFound, kinds⟩ hpath⟩

end IsLineage

/-- There is a chain just where the links lead to a type without parent. -/
theorem exists_isLineage_iff {name : String} :
    (∃ chain, IsLineage catalog name chain) ↔
      ∃ top, Relation.ReflTransGen catalog.Links name top ∧ catalog.IsTop top := by
  constructor
  · rintro ⟨chain, h⟩
    obtain ⟨top, -, htop, hpath⟩ := h.exists_top
    exact ⟨top, hpath, htop⟩
  · rintro ⟨top, hpath, entry, found, parentless⟩
    induction hpath using Relation.ReflTransGen.head_induction_on with
    | refl => exact ⟨_, .root found parentless⟩
    | head link _ ih =>
      obtain ⟨chain, hchain⟩ := ih
      obtain ⟨_, _, hfound, hlink, hparent, hkinds⟩ := link
      exact ⟨_, .extend hfound hlink hparent hkinds hchain⟩

/-- The types that a walk from `name` has passed, the last of them `current`; none is met twice. -/
inductive IsTrail (catalog : Catalog) (name : String) : List String → String → Prop
  | start {entry : TypeEntry} (found : catalog.get? name = some entry) :
      IsTrail catalog name [name] name
  | step {trail : List String} {current parent : String}
      (before : IsTrail catalog name trail current) (link : catalog.Links current parent)
      (new : parent ∉ trail) :
      IsTrail catalog name (trail ++ [parent]) parent

/-- What is wrong with the link from the last type of a trail: it leads back to a type of the trail,
to an undeclared name, or to a new type of another kind. -/
inductive Fault (catalog : Catalog) (trail : List String) (current : String) : Problem → Prop
  | cyclic {entry : TypeEntry} {parent : String} (found : catalog.get? current = some entry)
      (link : entry.parent = some parent) (visited : parent ∈ trail) :
      Fault catalog trail current
        (.cyclicExtension (Cycle.normalize (trail.dropWhile (· ≠ parent))))
  | undeclared {entry : TypeEntry} {parent : String} (found : catalog.get? current = some entry)
      (link : entry.parent = some parent) (missing : catalog.get? parent = none) :
      Fault catalog trail current (.undeclaredType parent (.extendsClause current))
  | incompatible {entry parentEntry : TypeEntry} {parent : String}
      (found : catalog.get? current = some entry) (link : entry.parent = some parent)
      (new : parent ∉ trail) (parentFound : catalog.get? parent = some parentEntry)
      (kinds : parentEntry.kind ≠ entry.kind) :
      Fault catalog trail current
        (.incompatibleExtension current entry.kind parent parentEntry.kind)

/-- The walk without a budget, from the last type of a trail on: how many parent links it looks at,
and its result. -/
inductive Climbs (catalog : Catalog) :
    List String → String → Nat → Except Problem (List String) → Prop
  | top {trail : List String} {current : String} (top : catalog.IsTop current) :
      Climbs catalog trail current 0 (.ok trail)
  | halt {trail : List String} {current : String} {problem : Problem}
      (fault : Fault catalog trail current problem) :
      Climbs catalog trail current 1 (.error problem)
  | onward {trail : List String} {current parent : String} {passes : Nat}
      {result : Except Problem (List String)} (link : catalog.Links current parent)
      (new : parent ∉ trail) (rest : Climbs catalog (trail ++ [parent]) parent passes result) :
      Climbs catalog trail current (passes + 1) result

inductive Walks (catalog : Catalog) (name : String) : Nat → Except Problem (List String) → Prop
  | nowhere (missing : catalog.get? name = none) :
      Walks catalog name 0 (.error (.undeclaredType name .lineage))
  | along {entry : TypeEntry} {passes : Nat} {result : Except Problem (List String)}
      (found : catalog.get? name = some entry) (climbs : Climbs catalog [name] name passes result) :
      Walks catalog name passes result

/-- What is wrong with the first link on the way from a name that cannot be followed, or with the
name itself. -/
inductive FirstFault (catalog : Catalog) (name : String) : Problem → Prop
  | undeclared (missing : catalog.get? name = none) :
      FirstFault catalog name (.undeclaredType name .lineage)
  | link {trail : List String} {current : String} {problem : Problem}
      (passed : IsTrail catalog name trail current) (fault : Fault catalog trail current problem) :
      FirstFault catalog name problem

namespace IsTrail

variable {name current : String} {trail : List String}

theorem mem (h : IsTrail catalog name trail current) : current ∈ trail := by
  cases h with
  | start => exact List.mem_cons_self
  | step => exact List.mem_append_right _ List.mem_cons_self

theorem nodup (h : IsTrail catalog name trail current) : trail.Nodup := by
  induction h with
  | start => exact List.pairwise_singleton ..
  | step _ _ new ih =>
    rw [← List.concat_eq_append]
    exact ih.concat new

theorem declared (h : IsTrail catalog name trail current) :
    ∃ entry, catalog.get? name = some entry := by
  induction h with
  | start found => exact ⟨_, found⟩
  | step _ _ _ ih => exact ih

theorem exists_get? (h : IsTrail catalog name trail current) :
    ∃ entry, catalog.get? current = some entry := by
  cases h with
  | start found => exact ⟨_, found⟩
  | step _ link _ =>
    obtain ⟨_, parentEntry, -, -, parentFound, -⟩ := link
    exact ⟨parentEntry, parentFound⟩

theorem subset_keys (h : IsTrail catalog name trail current) :
    trail ⊆ Table.keys catalog.types := by
  induction h with
  | start found => exact List.cons_subset.mpr ⟨Table.mem_keys_of_get? found, List.nil_subset _⟩
  | step before link new ih =>
    obtain ⟨entry, hentry⟩ := (IsTrail.step before link new).exists_get?
    exact List.append_subset.mpr
      ⟨ih, List.cons_subset.mpr ⟨Table.mem_keys_of_get? hentry, List.nil_subset _⟩⟩

theorem length_le (h : IsTrail catalog name trail current) :
    trail.length ≤ catalog.types.length := by
  simpa [Table.keys] using h.nodup.length_le_of_subset h.subset_keys

end IsTrail

theorem Fault.exists_link {trail : List String} {current : String} {problem : Problem}
    (h : Fault catalog trail current problem) :
    ∃ parent, catalog.parentOf current = some parent := by
  cases h with
  | cyclic found link | undeclared found link | incompatible found link =>
    exact ⟨_, (parentOf_of_get? found).trans link⟩

/-- A link that can be followed and has a fault leads back. -/
theorem Fault.of_links {trail : List String} {current parent : String} {problem : Problem}
    (h : Fault catalog trail current problem) (hlink : catalog.Links current parent) :
    parent ∈ trail ∧
      problem = .cyclicExtension (Cycle.normalize (trail.dropWhile (· ≠ parent))) := by
  obtain ⟨entry, parentEntry, found, link, parentFound, kinds⟩ := hlink
  cases h with
  | cyclic found' link' visited =>
    obtain rfl := Option.some.inj (found.symm.trans found')
    obtain rfl := Option.some.inj (link.symm.trans link')
    exact ⟨visited, rfl⟩
  | undeclared found' link' missing =>
    obtain rfl := Option.some.inj (found.symm.trans found')
    obtain rfl := Option.some.inj (link.symm.trans link')
    rw [parentFound] at missing
    cases missing
  | incompatible found' link' _ parentFound' kinds' =>
    obtain rfl := Option.some.inj (found.symm.trans found')
    obtain rfl := Option.some.inj (link.symm.trans link')
    obtain rfl := Option.some.inj (parentFound.symm.trans parentFound')
    exact absurd kinds kinds'

/-- Before a walk looks at a link, there is none, it has a fault, or it leads on. -/
theorem pass_cases (trail : List String) {current : String} {entry : TypeEntry}
    (found : catalog.get? current = some entry) :
    catalog.IsTop current ∨ (∃ problem, Fault catalog trail current problem) ∨
      ∃ parent, catalog.Links current parent ∧ parent ∉ trail := by
  cases link : entry.parent with
  | none => exact Or.inl ⟨entry, found, link⟩
  | some parent =>
    refine Or.inr ?_
    by_cases visited : parent ∈ trail
    · exact Or.inl ⟨_, .cyclic found link visited⟩
    · cases parentFound : catalog.get? parent with
      | none => exact Or.inl ⟨_, .undeclared found link parentFound⟩
      | some parentEntry =>
        by_cases kinds : parentEntry.kind = entry.kind
        · exact Or.inr ⟨parent, ⟨entry, parentEntry, found, link, parentFound, kinds⟩, visited⟩
        · exact Or.inl ⟨_, .incompatible found link visited parentFound kinds⟩

section Climb

variable (fuel : Nat) {trail : List String} {current : String} {entry : TypeEntry}

theorem climb_of_top (hentry : catalog.get? current = some entry) (h : catalog.IsTop current) :
    catalog.climb fuel trail current entry = .ok trail := by
  have hnone := h.parentOf_eq
  rw [parentOf_of_get? hentry] at hnone
  rw [climb, hnone]

/-- The trail of a walk has none of the types that are not declared. -/
theorem climb_of_fault {name : String} (htrail : IsTrail catalog name trail current)
    (hentry : catalog.get? current = some entry) {problem : Problem}
    (h : Fault catalog trail current problem) :
    catalog.climb fuel trail current entry = .error problem := by
  rw [climb.eq_def]
  cases h with
  | cyclic found link visited =>
    obtain rfl := Option.some.inj (hentry.symm.trans found)
    simp only [link, if_pos visited]
  | @undeclared _ parent found link missing =>
    obtain rfl := Option.some.inj (hentry.symm.trans found)
    have new : parent ∉ trail := fun hm =>
      (Table.get?_eq_none_iff _ _).mp missing (htrail.subset_keys hm)
    simp only [link, if_neg new, missing]
  | incompatible found link new parentFound kinds =>
    obtain rfl := Option.some.inj (hentry.symm.trans found)
    simp only [link, if_neg new, parentFound, if_pos kinds]

theorem climb_of_links (hentry : catalog.get? current = some entry) {parent : String}
    (hlink : catalog.Links current parent) (new : parent ∉ trail) :
    ∃ parentEntry, catalog.get? parent = some parentEntry ∧
      catalog.climb (fuel + 1) trail current entry =
        catalog.climb fuel (trail ++ [parent]) parent parentEntry := by
  obtain ⟨_, parentEntry, found, link, parentFound, kinds⟩ := hlink
  obtain rfl := Option.some.inj (hentry.symm.trans found)
  refine ⟨parentEntry, parentFound, ?_⟩
  rw [climb]
  simp only [link, if_neg new, parentFound, kinds, ne_eq, not_true_eq_false, if_false]

end Climb

theorem Fault.unique {name : String} {trail : List String} {current : String}
    (htrail : IsTrail catalog name trail current) {problem other : Problem}
    (h : Fault catalog trail current problem) (h' : Fault catalog trail current other) :
    problem = other := by
  obtain ⟨entry, hentry⟩ := htrail.exists_get?
  have hclimb : catalog.climb 0 trail current entry = .error problem :=
    climb_of_fault 0 htrail hentry h
  rw [climb_of_fault 0 htrail hentry h'] at hclimb
  exact (Except.error.inj hclimb).symm

theorem Climbs.unique {name : String} {trail : List String} {current : String}
    (htrail : IsTrail catalog name trail current) {passes passes' : Nat}
    {result result' : Except Problem (List String)} (h : Climbs catalog trail current passes result)
    (h' : Climbs catalog trail current passes' result') : passes = passes' ∧ result = result' := by
  induction h generalizing passes' result' with
  | top top =>
    have hnone := top.parentOf_eq
    cases h' with
    | top => exact ⟨rfl, rfl⟩
    | halt fault =>
      obtain ⟨parent, hparent⟩ := fault.exists_link
      rw [hparent] at hnone
      cases hnone
    | onward link =>
      rw [link.parentOf_eq] at hnone
      cases hnone
  | halt fault =>
    cases h' with
    | top top =>
      obtain ⟨parent, hparent⟩ := fault.exists_link
      rw [top.parentOf_eq] at hparent
      cases hparent
    | halt fault' => exact ⟨rfl, congrArg Except.error (fault.unique htrail fault')⟩
    | onward link new => exact absurd (fault.of_links link).1 new
  | onward link new _ ih =>
    cases h' with
    | top top =>
      have hnone := top.parentOf_eq
      rw [link.parentOf_eq] at hnone
      cases hnone
    | halt fault => exact absurd (fault.of_links link).1 new
    | onward link' _ rest' =>
      obtain rfl := link.unique link'
      obtain ⟨rfl, hresult⟩ := ih (htrail.step link new) rest'
      exact ⟨rfl, hresult⟩

/-- The budget never ends a walk: a trail has as many types as the walk has followed links, and
none of them twice. -/
theorem climbs_climb (fuel : Nat) {name : String} {trail : List String} {current : String}
    {entry : TypeEntry} (htrail : IsTrail catalog name trail current)
    (hentry : catalog.get? current = some entry)
    (hfuel : catalog.types.length < trail.length + fuel) :
    ∃ passes, passes + trail.length ≤ catalog.types.length + 1 ∧
      Climbs catalog trail current passes (catalog.climb fuel trail current entry) := by
  induction fuel generalizing trail current entry with
  | zero =>
    have hlength := htrail.length_le
    omega
  | succ fuel ih =>
    have hlength := htrail.length_le
    rcases pass_cases trail hentry with htop | ⟨problem, hfault⟩ | ⟨parent, hlink, hnew⟩
    · rw [climb_of_top _ hentry htop]
      exact ⟨0, by omega, .top htop⟩
    · rw [climb_of_fault _ htrail hentry hfault]
      exact ⟨1, by omega, .halt hfault⟩
    · obtain ⟨parentEntry, hparent, hclimb⟩ := climb_of_links fuel hentry hlink hnew
      obtain ⟨passes, hpasses, hclimbs⟩ := ih (htrail.step hlink hnew) hparent
        (by rw [List.length_append, List.length_singleton]; omega)
      rw [List.length_append, List.length_singleton] at hpasses
      rw [hclimb]
      exact ⟨passes + 1, by omega, .onward hlink hnew hclimbs⟩

theorem Walks.unique {name : String} {passes passes' : Nat}
    {result result' : Except Problem (List String)} (h : Walks catalog name passes result)
    (h' : Walks catalog name passes' result') : passes = passes' ∧ result = result' := by
  cases h with
  | nowhere missing =>
    cases h' with
    | nowhere => exact ⟨rfl, rfl⟩
    | along found => rw [missing] at found; cases found
  | along found climbs =>
    cases h' with
    | nowhere missing => rw [missing] at found; cases found
    | along _ climbs' => exact climbs.unique (.start found) climbs'

theorem exists_walks (catalog : Catalog) (name : String) :
    ∃ passes, passes ≤ catalog.types.length ∧ Walks catalog name passes (catalog.lineage name) := by
  rw [lineage]
  split
  next missing => exact ⟨0, Nat.zero_le _, .nowhere missing⟩
  next entry found =>
    obtain ⟨passes, hpasses, hclimbs⟩ := climbs_climb catalog.types.length (.start found) found
      (by rw [List.length_singleton]; omega)
    rw [List.length_singleton] at hpasses
    exact ⟨passes, by omega, .along found hclimbs⟩

/-- What a walk ends with is what a walk from further back ends with. -/
theorem IsTrail.climbs {name : String} {trail : List String} {current : String}
    (h : IsTrail catalog name trail current) {passes : Nat} {result : Except Problem (List String)}
    (hclimbs : Climbs catalog trail current passes result) :
    ∃ passes, Climbs catalog [name] name passes result := by
  induction h generalizing passes with
  | start => exact ⟨passes, hclimbs⟩
  | step _ link new ih => exact ih (.onward link new hclimbs)

theorem Climbs.firstFault {name : String} {trail : List String} {current : String} {passes : Nat}
    {problem : Problem} (h : Climbs catalog trail current passes (.error problem))
    (htrail : IsTrail catalog name trail current) : FirstFault catalog name problem := by
  generalize hresult : Except.error problem = result at h
  induction h with
  | top => cases hresult
  | halt fault =>
    cases hresult
    exact .link htrail fault
  | onward link new _ ih => exact ih (htrail.step link new) hresult

theorem lineage_eq_error_iff {name : String} {problem : Problem} :
    catalog.lineage name = .error problem ↔ FirstFault catalog name problem := by
  obtain ⟨passes, -, hwalks⟩ := exists_walks catalog name
  constructor
  · intro h
    rw [h] at hwalks
    cases hwalks with
    | nowhere missing => exact .undeclared missing
    | along found climbs => exact climbs.firstFault (.start found)
  · intro h
    cases h with
    | undeclared missing => exact (hwalks.unique (.nowhere missing)).2
    | link passed fault =>
      obtain ⟨_, hclimbs⟩ := passed.climbs (.halt fault)
      obtain ⟨_, found⟩ := passed.declared
      exact (hwalks.unique (.along found hclimbs)).2

/-- On every catalog the walk takes at most as many passes as there are types, and has one result.
It is a chain if and only if the links lead to a type without parent; then the chain leads there
from the name, type by type and without a repetition. Otherwise it is the first fault on the way. -/
theorem lineage_exact (catalog : Catalog) (name : String) :
    (∃ passes ≤ catalog.types.length, ∀ taken result,
      Walks catalog name taken result ↔ taken = passes ∧ result = catalog.lineage name) ∧
    ((∃ chain, catalog.lineage name = .ok chain) ↔
      ∃ top, Relation.ReflTransGen catalog.Links name top ∧ catalog.IsTop top) ∧
    (∀ chain, catalog.lineage name = .ok chain →
      chain.head? = some name ∧
      chain.IsChain (fun type next => catalog.parentOf type = some next) ∧ chain.Nodup ∧
      ∃ top, chain.getLast? = some top ∧ catalog.IsTop top) ∧
    (∀ problem, catalog.lineage name = .error problem ↔ FirstFault catalog name problem) := by
  refine ⟨?_, ?_, ?_, fun _ => lineage_eq_error_iff⟩
  · obtain ⟨passes, hpasses, hwalks⟩ := exists_walks catalog name
    refine ⟨passes, hpasses, fun taken result => ⟨fun h => h.unique hwalks, ?_⟩⟩
    rintro ⟨rfl, rfl⟩
    exact hwalks
  · simp only [lineage_eq_ok_iff]
    exact exists_isLineage_iff
  · intro chain h
    have hchain := lineage_eq_ok_iff.mp h
    obtain ⟨ancestors, rfl⟩ := hchain.exists_cons
    obtain ⟨top, hlast, htop, -⟩ := hchain.exists_top
    have hparents := hchain.linked.imp fun _ _ hlink => hlink.parentOf_eq
    exact ⟨rfl, hparents, hchain.nodup, top, hlast, htop⟩

def pack : Catalog :=
  let object (parent : Option String) : TypeEntry := ⟨.object, none, parent, [], [], none, none⟩
  { types :=
      [("Puppy", object (some "Dog")), ("Wolf", object (some "Dog")), ("Dog", object (some "Wolf")),
        ("Kitten", object (some "Cat")), ("Cat", object none)] }

theorem lineage_exact_pack :
    FirstFault pack "Puppy" (.cyclicExtension ["Dog", "Wolf", "Dog"]) ∧
    (∃ passes ≤ 5, ∀ taken result,
      Walks pack "Puppy" taken result ↔ taken = passes ∧ result = pack.lineage "Puppy") ∧
    (∃ top, Relation.ReflTransGen pack.Links "Kitten" top ∧ pack.IsTop top) ∧
    ["Kitten", "Cat"].IsChain fun type next => pack.parentOf type = some next := by
  obtain ⟨hpasses, -, -, hfault⟩ := lineage_exact pack "Puppy"
  obtain ⟨-, hreach, hchain, -⟩ := lineage_exact pack "Kitten"
  have hkitten : pack.lineage "Kitten" = .ok ["Kitten", "Cat"] := by decide
  exact ⟨(hfault _).mp (by decide), hpasses, hreach.mp ⟨_, hkitten⟩, (hchain _ hkitten).2.1⟩

end Schemata.Catalog
