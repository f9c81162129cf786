import Mathlib.Data.List.Cycle
import Mathlib.Data.String.Basic
import Schemata.Proofs.Analysis
import Schemata.Proofs.ParentWalk

namespace Schemata

/-- The chain starts and ends with the smallest member of the cycle, and lists every other member
once in between, in the order of the cycle. -/
def IsCanonical (cycle : Cycle String) (chain : List String) : Prop :=
  ∃ least others, chain = least :: others ++ [least] ∧ cycle = ↑(least :: others) ∧
    ∀ other ∈ others, least < other

/-- A canonical chain tells its cycle. -/
theorem IsCanonical.cycle_unique {cycle other : Cycle String} {chain : List String}
    (h : IsCanonical cycle chain) (h' : IsCanonical other chain) : cycle = other := by
  obtain ⟨least, others, rfl, rfl, -⟩ := h
  obtain ⟨least', others', he, rfl, -⟩ := h'
  rw [List.append_inj_left' he rfl]

namespace Cycle

theorem least_spec (first : String) (others : List String) :
    least first others ∈ first :: others ∧ ∀ name ∈ first :: others, least first others ≤ name := by
  induction others generalizing first with
  | nil => simp [least]
  | cons name rest ih =>
    rw [least, List.foldl_cons]
    split
    next hless =>
      obtain ⟨hmem, hle⟩ := ih name
      refine ⟨List.mem_cons_of_mem _ hmem, List.forall_mem_cons.mpr ⟨?_, hle⟩⟩
      exact (hle name List.mem_cons_self).trans hless.le
    next hless =>
      obtain ⟨hmem, hle⟩ := ih first
      rw [List.forall_mem_cons] at hle ⊢
      refine ⟨?_, hle.1, List.forall_mem_cons.mpr ⟨hle.1.trans (not_lt.mp hless), hle.2⟩⟩
      rcases List.mem_cons.mp hmem with he | hm
      · rw [← least, he]
        exact List.mem_cons_self
      · exact List.mem_cons_of_mem _ (List.mem_cons_of_mem _ hm)

/-- From the first place of a name on, a list starts with it. -/
theorem exists_dropWhile {names : List String} {name : String} (h : name ∈ names) :
    ∃ rest, names.dropWhile (· ≠ name) = name :: rest := by
  induction names with
  | nil => cases h
  | cons first rest ih =>
    by_cases he : first = name
    · exact ⟨rest, by simp [he]⟩
    · obtain ⟨more, hmore⟩ := ih ((List.mem_cons.mp h).resolve_left (Ne.symm he))
      exact ⟨more, by rw [List.dropWhile_cons_of_pos (by simpa using he), hmore]⟩

theorem normalize_isCanonical {members : List String} (hne : members ≠ []) (hn : members.Nodup) :
    IsCanonical ↑members (normalize members) := by
  obtain ⟨first, others, rfl⟩ := List.exists_cons_of_ne_nil hne
  obtain ⟨hmem, hle⟩ := least_spec first others
  generalize hleast : least first others = smallest at hmem hle
  obtain ⟨rest, hrear⟩ := exists_dropWhile hmem
  generalize hfront : (first :: others).takeWhile (· ≠ smallest) = front
  have hsplit : front ++ smallest :: rest = first :: others := by
    rw [← hfront, ← hrear]
    exact List.takeWhile_append_dropWhile
  have hperm : (front ++ smallest :: rest).Perm (smallest :: (rest ++ front)) :=
    List.perm_append_comm
  have hnodup : (smallest :: (rest ++ front)).Nodup := by
    rw [← hsplit] at hn
    exact hperm.nodup_iff.mp hn
  refine ⟨smallest, rest ++ front, ?_, ?_, fun other hother => ?_⟩
  · rw [normalize, splitAtLeast, hleast, hrear, hfront]
    rfl
  · rw [Cycle.coe_eq_coe, ← hsplit]
    exact List.isRotated_append
  · refine lt_of_le_of_ne (hle other ?_) fun he => (List.nodup_cons.mp hnodup).1 (he ▸ hother)
    rw [← hsplit]
    exact hperm.mem_iff.mpr (List.mem_cons_of_mem _ hother)

end Cycle

namespace Catalog

variable {catalog : Catalog}

/-- Distinct types, each with the next as its parent and the last with the first. -/
structure IsParentCycle (catalog : Catalog) (cycle : Cycle String) : Prop where
  nonempty : cycle ≠ Cycle.nil
  nodup : cycle.Nodup
  linked : cycle.Chain fun type parent => catalog.parentOf type = some parent

def kindAt (catalog : Catalog) (type : String) : Option TypeKind :=
  (catalog.get? type).map TypeEntry.kind

def OfOneKind (catalog : Catalog) (cycle : Cycle String) : Prop :=
  ∀ type ∈ cycle, ∀ other ∈ cycle, catalog.kindAt type = catalog.kindAt other

/-- The type is in the cycle, or links that can be followed lead into it. -/
def Enters (catalog : Catalog) (type : String) (cycle : Cycle String) : Prop :=
  ∃ member ∈ cycle, Relation.ReflTransGen catalog.Links type member

theorem exists_of_parentOf {type parent : String} (h : catalog.parentOf type = some parent) :
    ∃ entry, catalog.get? type = some entry ∧ entry.parent = some parent :=
  Option.bind_eq_some_iff.mp h

theorem kindAt_of_get? {type : String} {entry : TypeEntry} (h : catalog.get? type = some entry) :
    catalog.kindAt type = some entry.kind := by
  rw [kindAt, h, Option.map_some]

theorem Links.kindAt_eq {type parent : String} (h : catalog.Links type parent) :
    catalog.kindAt type = catalog.kindAt parent := by
  obtain ⟨entry, parentEntry, found, -, parentFound, kinds⟩ := h
  rw [kindAt_of_get? found, kindAt_of_get? parentFound, kinds]

theorem links_of_kindAt {type parent top : String} (h : catalog.parentOf type = some parent)
    (hparent : catalog.parentOf parent = some top)
    (hkind : catalog.kindAt type = catalog.kindAt parent) : catalog.Links type parent := by
  obtain ⟨entry, found, link⟩ := exists_of_parentOf h
  obtain ⟨parentEntry, parentFound, -⟩ := exists_of_parentOf hparent
  rw [kindAt_of_get? found, kindAt_of_get? parentFound, Option.some.injEq] at hkind
  exact ⟨entry, parentEntry, found, link, parentFound, hkind.symm⟩

theorem links_rightUnique : Relator.RightUnique catalog.Links :=
  fun _ _ _ h h' => h.unique h'

/-- Two ways along parent links from a type to the next `last` are one. -/
theorem parents_unique {type last : String} {between other : List String}
    (h : (type :: (between ++ [last])).IsChain fun type parent =>
      catalog.parentOf type = some parent)
    (h' : (type :: (other ++ [last])).IsChain fun type parent =>
      catalog.parentOf type = some parent)
    (hlast : last ∉ between) (hlast' : last ∉ other) : between = other := by
  induction between generalizing type other with
  | nil =>
    cases other with
    | nil => rfl
    | cons next rest =>
      have he := Option.some.inj (h.rel.symm.trans h'.rel)
      exact absurd (he ▸ List.mem_cons_self) hlast'
  | cons first between ih =>
    cases other with
    | nil =>
      have he := Option.some.inj (h'.rel.symm.trans h.rel)
      exact absurd (he ▸ List.mem_cons_self) hlast
    | cons next rest =>
      obtain rfl := Option.some.inj (h.rel.symm.trans h'.rel)
      rw [List.mem_cons, not_or] at hlast hlast'
      rw [ih h.tail h'.tail hlast.2 hlast'.2]

namespace IsParentCycle

variable {cycle other : Cycle String}

theorem exists_member (h : catalog.IsParentCycle cycle) : ∃ member, member ∈ cycle := by
  induction cycle with
  | nil => exact absurd rfl h.nonempty
  | cons first => exact ⟨first, List.mem_cons_self⟩

theorem exists_canonical (h : catalog.IsParentCycle cycle) : ∃ chain, IsCanonical cycle chain := by
  induction cycle with
  | nil => exact absurd rfl h.nonempty
  | cons first others =>
    exact ⟨_, Cycle.normalize_isCanonical (List.cons_ne_nil _ _) (Cycle.nodup_coe_iff.mp h.nodup)⟩

/-- A cycle can be listed from any of its members on. -/
theorem exists_from (h : catalog.IsParentCycle cycle) {member : String} (hmember : member ∈ cycle) :
    ∃ rest, cycle = ↑(member :: rest) ∧ member ∉ rest ∧
      (member :: (rest ++ [member])).IsChain fun type parent =>
        catalog.parentOf type = some parent := by
  induction cycle with
  | nil => exact absurd hmember (Cycle.notMem_nil member)
  | cons first others =>
    obtain ⟨front, rear, hsplit⟩ := List.append_of_mem (Cycle.mem_coe_iff.mp hmember)
    have he : (↑(first :: others) : Cycle String) = ↑(member :: (rear ++ front)) := by
      rw [hsplit, Cycle.coe_eq_coe]
      exact List.isRotated_append
    have hn := h.nodup
    have hlinked := h.linked
    rw [he] at hn hlinked
    exact ⟨rear ++ front, he, (List.nodup_cons.mp (Cycle.nodup_coe_iff.mp hn)).1, hlinked⟩

theorem eq_of_mem (h : catalog.IsParentCycle cycle) (h' : catalog.IsParentCycle other)
    {member : String} (hmember : member ∈ cycle) (hmember' : member ∈ other) : cycle = other := by
  obtain ⟨rest, rfl, hnew, hlinked⟩ := h.exists_from hmember
  obtain ⟨rest', rfl, hnew', hlinked'⟩ := h'.exists_from hmember'
  rw [parents_unique hlinked hlinked' hnew hnew']

theorem exists_parent (h : catalog.IsParentCycle cycle) {member : String}
    (hmember : member ∈ cycle) :
    ∃ parent ∈ cycle, catalog.parentOf member = some parent := by
  obtain ⟨rest, rfl, -, hlinked⟩ := h.exists_from hmember
  cases rest with
  | nil => exact ⟨member, hmember, hlinked.rel⟩
  | cons next rest => exact ⟨next, List.mem_cons_of_mem _ List.mem_cons_self, hlinked.rel⟩

theorem mem_of_links (h : catalog.IsParentCycle cycle) {member type : String}
    (hmember : member ∈ cycle) (hpath : Relation.ReflTransGen catalog.Links member type) :
    type ∈ cycle := by
  induction hpath with
  | refl => exact hmember
  | tail _ link ih =>
    obtain ⟨parent, hparent, he⟩ := h.exists_parent ih
    rwa [Option.some.inj (link.parentOf_eq.symm.trans he)]

/-- A canonical chain of a cycle is the only one. -/
theorem canonical_unique (h : catalog.IsParentCycle cycle) {chain chain' : List String}
    (hchain : IsCanonical cycle chain) (hchain' : IsCanonical cycle chain') : chain = chain' := by
  obtain ⟨least, others, rfl, rfl, hless⟩ := hchain
  obtain ⟨least', others', rfl, he, hless'⟩ := hchain'
  have hperm := (Cycle.coe_eq_coe.mp he).perm
  -- Each of the two is smaller than every other member.
  obtain rfl : least = least' := by
    have hmem := hperm.mem_iff.mp List.mem_cons_self
    have hmem' := hperm.mem_iff.mpr List.mem_cons_self
    rcases List.mem_cons.mp hmem with hsame | hm
    · exact hsame
    · rcases List.mem_cons.mp hmem' with hsame | hm'
      · exact hsame.symm
      · exact absurd (hless' least hm) (hless least' hm').asymm
  have hn := Cycle.nodup_coe_iff.mp h.nodup
  have hn' := hperm.nodup_iff.mp hn
  have hlinked' := h.linked
  rw [he] at hlinked'
  rw [parents_unique h.linked hlinked' (List.nodup_cons.mp hn).1 (List.nodup_cons.mp hn').1]

end IsParentCycle

/-- A type enters one cycle at most. -/
theorem Enters.unique {type : String} {cycle other : Cycle String} (h : catalog.Enters type cycle)
    (h' : catalog.Enters type other) (hcycle : catalog.IsParentCycle cycle)
    (hother : catalog.IsParentCycle other) : cycle = other := by
  obtain ⟨member, hmember, hpath⟩ := h
  obtain ⟨member', hmember', hpath'⟩ := h'
  rcases hpath.total_of_right_unique links_rightUnique hpath' with hon | hon
  · exact hcycle.eq_of_mem hother (hcycle.mem_of_links hmember hon) hmember'
  · exact hcycle.eq_of_mem hother hmember (hother.mem_of_links hmember' hon)

namespace IsTrail

variable {name current : String} {trail : List String}

theorem linked (h : IsTrail catalog name trail current) :
    trail.IsChain catalog.Links ∧ trail.getLast? = some current := by
  induction h with
  | start => exact ⟨.singleton _, rfl⟩
  | step _ link _ ih =>
    refine ⟨ih.1.append (.singleton _) fun last hlast next hnext => ?_, List.getLast?_concat⟩
    rw [ih.2, Option.mem_some_iff] at hlast
    rw [List.head?_singleton, Option.mem_some_iff] at hnext
    exact hlast ▸ hnext ▸ link

theorem reaches (h : IsTrail catalog name trail current) :
    ∀ type ∈ trail, Relation.ReflTransGen catalog.Links name type := by
  induction h with
  | start => exact List.forall_mem_singleton.mpr .refl
  | step before link _ ih =>
    have hparent := (ih _ before.mem).tail link
    exact List.forall_mem_append.mpr ⟨ih, List.forall_mem_singleton.mpr hparent⟩

/-- From the first place of the parent on, the trail is a cycle of one kind. -/
theorem exists_cycle (h : IsTrail catalog name trail current) {parent : String}
    (hlink : catalog.parentOf current = some parent) (hvisited : parent ∈ trail) :
    ∃ cycle, catalog.IsParentCycle cycle ∧ catalog.OfOneKind cycle ∧ catalog.Enters name cycle ∧
      IsCanonical cycle (Cycle.normalize (trail.dropWhile (· ≠ parent))) := by
  obtain ⟨rest, hrest⟩ := Cycle.exists_dropWhile hvisited
  have hsuffix : (parent :: rest) <:+ trail := hrest ▸ List.dropWhile_suffix _
  have hn : (parent :: rest).Nodup := h.nodup.sublist hsuffix.sublist
  have hlinked : (parent :: rest).IsChain catalog.Links := h.linked.1.suffix hsuffix
  have hlast : (parent :: rest).getLast? = some current := by
    obtain ⟨before, hbefore⟩ := hsuffix
    rw [← h.linked.2, ← hbefore, List.getLast?_append_of_ne_nil _ (List.cons_ne_nil _ _)]
  rw [hrest]
  refine ⟨↑(parent :: rest), ⟨?_, Cycle.nodup_coe_iff.mpr hn, ?_⟩, ?_, ⟨parent, ?_, ?_⟩,
    Cycle.normalize_isCanonical (List.cons_ne_nil _ _) hn⟩
  · rw [Ne, Cycle.coe_eq_nil]
    exact List.cons_ne_nil _ _
  · rw [Cycle.chain_coe_cons, ← List.cons_append]
    have hparents := hlinked.imp fun _ _ link => link.parentOf_eq
    refine hparents.append (.singleton _) fun last hm next hnext => ?_
    rw [hlast, Option.mem_some_iff] at hm
    rw [List.head?_singleton, Option.mem_some_iff] at hnext
    rw [← hm, ← hnext, hlink]
  · have hkinds : ∀ type ∈ parent :: rest, catalog.kindAt type = catalog.kindAt parent :=
      hlinked.induction _ _ (fun _ _ link hkind => link.kindAt_eq.symm.trans hkind) fun _ => rfl
    exact fun type htype other hother => (hkinds type htype).trans (hkinds other hother).symm
  · exact List.mem_cons_self
  · exact h.reaches parent hvisited

end IsTrail

section Entering

variable {name : String} {cycle : Cycle String}

theorem Enters.declared (h : catalog.Enters name cycle) (hcycle : catalog.IsParentCycle cycle) :
    ∃ entry, catalog.get? name = some entry := by
  obtain ⟨member, hmember, hpath⟩ := h
  rcases hpath.cases_head with rfl | ⟨_, ⟨entry, _, found, -⟩, -⟩
  · obtain ⟨parent, -, hparent⟩ := hcycle.exists_parent hmember
    obtain ⟨entry, found, -⟩ := exists_of_parentOf hparent
    exact ⟨entry, found⟩
  · exact ⟨entry, found⟩

/-- No type without parent lies beyond a cycle. -/
theorem Enters.not_isLineage (h : catalog.Enters name cycle) (hcycle : catalog.IsParentCycle cycle)
    (chain : List String) : ¬IsLineage catalog name chain := by
  intro hchain
  obtain ⟨top, -, htop, hpath⟩ := hchain.exists_top
  obtain ⟨member, hmember, hpath'⟩ := h
  have htopmem : top ∉ cycle := fun hm => by
    obtain ⟨parent, -, hparent⟩ := hcycle.exists_parent hm
    rw [htop.parentOf_eq] at hparent
    cases hparent
  rcases hpath.total_of_right_unique links_rightUnique hpath' with hon | hon
  · rcases hon.cases_head with rfl | ⟨next, link, -⟩
    · exact htopmem hmember
    · have hlink := link.parentOf_eq
      rw [htop.parentOf_eq] at hlink
      cases hlink
  · exact htopmem (hcycle.mem_of_links hmember hon)

/-- The walk stops on the way into the cycle, where the link can be followed, or in the cycle. -/
theorem Enters.exists_fault (h : catalog.Enters name cycle) (hcycle : catalog.IsParentCycle cycle) :
    ∃ trail current problem, IsTrail catalog name trail current ∧
      Fault catalog trail current problem ∧ catalog.lineage name = .error problem ∧
      (current ∈ cycle ∨ ∃ parent, catalog.Links current parent) := by
  cases hl : catalog.lineage name with
  | ok chain => exact absurd (lineage_eq_ok_iff.mp hl) (h.not_isLineage hcycle chain)
  | error problem =>
    cases lineage_eq_error_iff.mp hl with
    | undeclared missing =>
      obtain ⟨entry, found⟩ := h.declared hcycle
      rw [missing] at found
      cases found
    | @link trail current _ passed fault =>
      obtain ⟨member, hmember, hpath⟩ := h
      refine ⟨trail, current, problem, passed, fault, rfl, ?_⟩
      rcases (passed.reaches current passed.mem).total_of_right_unique links_rightUnique hpath with
        hon | hon
      · rcases hon.cases_head with rfl | ⟨parent, link, -⟩
        · exact Or.inl hmember
        · exact Or.inr ⟨parent, link⟩
      · exact Or.inl (hcycle.mem_of_links hmember hon)

/-- A link of a cycle of one kind can be followed. -/
theorem IsParentCycle.exists_links (hcycle : catalog.IsParentCycle cycle)
    (hkind : catalog.OfOneKind cycle) {member : String} (hmember : member ∈ cycle) :
    ∃ parent, catalog.Links member parent := by
  obtain ⟨parent, hparent, hlink⟩ := hcycle.exists_parent hmember
  obtain ⟨_, -, hnext⟩ := hcycle.exists_parent hparent
  exact ⟨parent, links_of_kindAt hlink hnext (hkind member hmember parent hparent)⟩

/-- What is reported as a cycle is one, of one kind, and the walk has entered it. -/
theorem exists_cycle_of_lineage {chain : List String}
    (h : catalog.lineage name = .error (.cyclicExtension chain)) :
    ∃ cycle, catalog.IsParentCycle cycle ∧ catalog.OfOneKind cycle ∧ catalog.Enters name cycle ∧
      IsCanonical cycle chain := by
  cases lineage_eq_error_iff.mp h with
  | link passed fault =>
    cases fault with
    | cyclic found link visited =>
      exact passed.exists_cycle ((parentOf_of_get? found).trans link) visited

/-- Whichever type a walk enters a cycle of one kind from, it reports the same chain. -/
theorem lineage_eq_cyclic_iff (hcycle : catalog.IsParentCycle cycle)
    (hkind : catalog.OfOneKind cycle) {chain : List String} (hchain : IsCanonical cycle chain) :
    catalog.lineage name = .error (.cyclicExtension chain) ↔ catalog.Enters name cycle := by
  constructor
  · intro h
    obtain ⟨other, hother, -, henters, hcanonical⟩ := exists_cycle_of_lineage h
    rwa [hchain.cycle_unique hcanonical]
  · intro h
    obtain ⟨trail, current, problem, htrail, hfault, hl, hwhere⟩ := h.exists_fault hcycle
    obtain ⟨parent, hlink⟩ : ∃ parent, catalog.Links current parent := by
      rcases hwhere with hmember | hlink
      · exact hcycle.exists_links hkind hmember
      · exact hlink
    obtain ⟨-, rfl⟩ := hfault.of_links hlink
    obtain ⟨other, hother, -, henters, hcanonical⟩ := exists_cycle_of_lineage hl
    obtain rfl := h.unique henters hcycle hother
    rw [hl, hcycle.canonical_unique hchain hcanonical]

/-- The walk into a cycle of several kinds stops in it, where the kind changes. -/
theorem exists_incompatible (hcycle : catalog.IsParentCycle cycle)
    (hkinds : ¬catalog.OfOneKind cycle) (h : catalog.Enters name cycle) :
    ∃ type ∈ cycle, ∃ parent ∈ cycle, ∃ kind parentKind, catalog.kindAt type = some kind ∧
      catalog.parentOf type = some parent ∧ catalog.kindAt parent = some parentKind ∧
      catalog.lineage name = .error (.incompatibleExtension type kind parent parentKind) := by
  obtain ⟨trail, current, problem, htrail, hfault, hl, hwhere⟩ := h.exists_fault hcycle
  have hnot (chain : List String) : problem ≠ .cyclicExtension chain := by
    rintro rfl
    obtain ⟨other, hother, hkind, henters, -⟩ := exists_cycle_of_lineage hl
    exact hkinds (h.unique henters hcycle hother ▸ hkind)
  have hmember : current ∈ cycle :=
    hwhere.resolve_right fun ⟨parent, hlink⟩ => hnot _ (hfault.of_links hlink).2
  obtain ⟨parent, hparent, hlink⟩ := hcycle.exists_parent hmember
  cases hfault with
  | cyclic => exact absurd rfl (hnot _)
  | undeclared found link missing =>
    rw [parentOf_of_get? found, link, Option.some.injEq] at hlink
    subst hlink
    obtain ⟨_, -, hnext⟩ := hcycle.exists_parent hparent
    obtain ⟨_, parentFound, -⟩ := exists_of_parentOf hnext
    rw [missing] at parentFound
    cases parentFound
  | incompatible found link _ parentFound _ =>
    rw [parentOf_of_get? found, link, Option.some.injEq] at hlink
    subst hlink
    exact ⟨current, hmember, _, hparent, _, _, kindAt_of_get? found,
      (parentOf_of_get? found).trans link, kindAt_of_get? parentFound, hl⟩

end Entering

theorem reported_allFields (hn : (Table.keys catalog.types).Nodup) :
    reported catalog.allFields =
      noteAll [] ((Table.keys catalog.types).filterMap fun name =>
        problemOf (catalog.lineage name)) := by
  rw [allFields, reported_unlessProblems]
  exact (foldl_flattenStep catalog _ {} cacheSound_nil hn).2

theorem mem_reported_allFields (hn : (Table.keys catalog.types).Nodup) {problem : Problem} :
    problem ∈ reported catalog.allFields ↔
      ∃ name ∈ Table.keys catalog.types, catalog.lineage name = .error problem := by
  rw [reported_allFields hn, mem_noteAll, List.mem_filterMap]
  simp only [List.not_mem_nil, false_or, problemOf_eq_some_iff]

/-- What stops the walk from a type that enters a cycle is among the problems. -/
theorem Enters.reported (hn : (Table.keys catalog.types).Nodup) {name : String}
    {cycle : Cycle String} (henters : catalog.Enters name cycle)
    (hcycle : catalog.IsParentCycle cycle) {problem : Problem}
    (hl : catalog.lineage name = .error problem) : problem ∈ reported catalog.allFields := by
  obtain ⟨entry, found⟩ := henters.declared hcycle
  exact (mem_reported_allFields hn).mpr ⟨name, Table.mem_keys_of_get? found, hl⟩

theorem exists_cycle_of_reported (hn : (Table.keys catalog.types).Nodup) {chain : List String}
    (h : .cyclicExtension chain ∈ reported catalog.allFields) :
    ∃ cycle, catalog.IsParentCycle cycle ∧ catalog.OfOneKind cycle ∧ IsCanonical cycle chain := by
  obtain ⟨name, -, hl⟩ := (mem_reported_allFields hn).mp h
  obtain ⟨cycle, hcycle, hkind, -, hcanonical⟩ := exists_cycle_of_lineage hl
  exact ⟨cycle, hcycle, hkind, hcanonical⟩

theorem exists_allFields_iff (hn : (Table.keys catalog.types).Nodup) :
    (∃ fields, catalog.allFields = .ok fields) ↔
      ∀ name ∈ Table.keys catalog.types, ∃ chain, catalog.lineage name = .ok chain := by
  simp only [lineage_eq_ok_iff]
  constructor
  · rintro ⟨fields, hfields⟩
    exact ((allFields_eq_ok_iff hn).mp hfields).1
  · exact fun hall => ⟨_, (allFields_eq_ok_iff hn).mpr ⟨hall, rfl⟩⟩

/-- The problems tell each cycle of one kind, whatever type it was entered from, and no other cycle;
where a cycle is of several kinds, they tell that a type of it extends one of another kind. -/
structure TellsCycles (catalog : Catalog) (problems : List Problem) : Prop where
  nodup : problems.Nodup
  told : ∀ chain, .cyclicExtension chain ∈ problems →
    ∃! cycle, catalog.IsParentCycle cycle ∧ catalog.OfOneKind cycle ∧ IsCanonical cycle chain
  oneKind : ∀ cycle, catalog.IsParentCycle cycle → catalog.OfOneKind cycle →
    ∃ chain, (∀ other, IsCanonical cycle other ↔ other = chain) ∧
      .cyclicExtension chain ∈ problems ∧
      ∀ name, catalog.lineage name = .error (.cyclicExtension chain) ↔ catalog.Enters name cycle
  severalKinds : ∀ cycle, catalog.IsParentCycle cycle → ¬catalog.OfOneKind cycle →
    (∀ chain, IsCanonical cycle chain → .cyclicExtension chain ∉ problems) ∧
    ∀ name, catalog.Enters name cycle → ∃ type ∈ cycle, ∃ parent ∈ cycle, ∃ kind parentKind,
      catalog.kindAt type = some kind ∧ catalog.parentOf type = some parent ∧
      catalog.kindAt parent = some parentKind ∧
      catalog.lineage name = .error (.incompatibleExtension type kind parent parentKind) ∧
      .incompatibleExtension type kind parent parentKind ∈ problems

/-- Each cycle is reported once, if it is of one kind. -/
theorem allFields_tellsCycles {registry : Registry}
    (h : Catalog.ofRegistry registry = .ok catalog) :
    catalog.TellsCycles (reported catalog.allFields) ∧
    ((∃ fields, catalog.allFields = .ok fields) ↔
      ∀ name ∈ Table.keys catalog.types, ∃ chain, catalog.lineage name = .ok chain) := by
  have hn := (Catalog.ofRegistry_wellNamed h).types_nodup
  refine ⟨⟨?_, ?_, ?_, ?_⟩, exists_allFields_iff hn⟩
  · rw [reported_allFields hn]
    exact nodup_noteAll List.nodup_nil
  · intro chain hchain
    obtain ⟨cycle, hcycle, hkind, hcanonical⟩ := exists_cycle_of_reported hn hchain
    exact ⟨cycle, ⟨hcycle, hkind, hcanonical⟩,
      fun other hother => hother.2.2.cycle_unique hcanonical⟩
  · intro cycle hcycle hkind
    obtain ⟨chain, hcanonical⟩ := hcycle.exists_canonical
    have hunique (other : List String) : IsCanonical cycle other ↔ other = chain :=
      ⟨fun hother => hcycle.canonical_unique hother hcanonical, fun he => he ▸ hcanonical⟩
    obtain ⟨member, hmember⟩ := hcycle.exists_member
    have henters : catalog.Enters member cycle := ⟨member, hmember, .refl⟩
    have hl := (lineage_eq_cyclic_iff hcycle hkind hcanonical).mpr henters
    exact ⟨chain, hunique, henters.reported hn hcycle hl,
      fun name => lineage_eq_cyclic_iff hcycle hkind hcanonical⟩
  · intro cycle hcycle hkinds
    refine ⟨fun chain hcanonical hchain => ?_, fun name henters => ?_⟩
    · obtain ⟨other, -, hkind, hcanonical'⟩ := exists_cycle_of_reported hn hchain
      exact hkinds (hcanonical.cycle_unique hcanonical' ▸ hkind)
    · obtain ⟨type, htype, parent, hparent, kind, parentKind, hkind, hlink, hparentKind, hl⟩ :=
        exists_incompatible hcycle hkinds henters
      exact ⟨type, htype, parent, hparent, kind, parentKind, hkind, hlink, hparentKind, hl,
        henters.reported hn hcycle hl⟩

end Catalog

def Registry.pack : Registry :=
  let extending (kind : TypeKind) (name parent : String) : TypeDeclaration :=
    { TypeDeclaration.new kind name with parent := some (.literal parent) }
  { types :=
      [extending .object "Puppy" "Wolf", extending .object "Wolf" "Dog",
        extending .object "Dog" "Wolf", extending .interface "Pet" "Toy",
        extending .input "Toy" "Pet"] }

theorem Catalog.allFields_tellsCycles_pack :
    ∃ catalog, Catalog.ofRegistry Registry.pack = .ok catalog ∧
      reported catalog.allFields =
        [.cyclicExtension ["Dog", "Wolf", "Dog"],
          .incompatibleExtension "Pet" .interface "Toy" .input,
          .incompatibleExtension "Toy" .input "Pet" .interface] ∧
      catalog.TellsCycles (reported catalog.allFields) := by
  have hrun : (Catalog.ofRegistry Registry.pack).toOption.any (fun catalog =>
      decide (reported catalog.allFields =
        [.cyclicExtension ["Dog", "Wolf", "Dog"],
          .incompatibleExtension "Pet" .interface "Toy" .input,
          .incompatibleExtension "Toy" .input "Pet" .interface])) = true := by
    decide +kernel
  obtain ⟨catalog, hcatalog, hproblems⟩ := exists_ok_of_any hrun
  exact ⟨catalog, hcatalog, of_decide_eq_true hproblems, (allFields_tellsCycles hcatalog).1⟩

end Schemata
