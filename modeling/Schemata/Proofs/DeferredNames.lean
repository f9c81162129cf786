import Mathlib.Data.List.Induction
import Mathlib.Data.List.Nodup
import Schemata.TypeName

namespace Schemata

/-- What the filled cells hold, the last filled first: the names that their thunks returned. -/
abbrev Memo := List (Nat × TypeName)

def ThunkRuns.memo (thunks : Nat → TypeName) (runs : ThunkRuns) : Memo :=
  runs.map fun cell => (cell, thunks cell)

theorem ThunkRuns.lookup_memo (thunks : Nat → TypeName) (runs : ThunkRuns) (cell : Nat) :
    (memo thunks runs).lookup cell = if cell ∈ runs then some (thunks cell) else none := by
  induction runs with
  | nil => rfl
  | cons last rest ih =>
    rw [memo, List.map_cons, List.lookup_cons, ← memo, ih]
    by_cases h : cell = last
    · subst h
      simp
    · have hne : (cell == last) = false := beq_eq_false_iff_ne.mpr h
      simp [hne, h]

namespace TypeName

def cells : TypeName → List Nat
  | .deferred cell thunk => cell :: thunk.cells
  | _ => []

/-- The thunk of each cell returns what `thunks` has for it. -/
def Follows (thunks : Nat → TypeName) : TypeName → Prop
  | .deferred cell thunk => thunks cell = thunk ∧ thunk.Follows thunks
  | _ => True

/-- Resolution by what the cells hold. An empty cell is filled by its thunk, and the name in it is
resolved in turn. -/
inductive Resolves (thunks : Nat → TypeName) (names : ElementNames) :
    TypeName → Memo → String → Memo → Prop
  | literal {text : String} {memo : Memo} :
      Resolves thunks names (.literal text) memo text memo
  | element {host : Element} {memo : Memo} :
      Resolves thunks names (.element host) memo (names.nameOf host) memo
  | held {cell : Nat} {thunk name : TypeName} {memo after : Memo} {text : String}
      (filled : memo.lookup cell = some name) (rest : Resolves thunks names name memo text after) :
      Resolves thunks names (.deferred cell thunk) memo text after
  | run {cell : Nat} {thunk : TypeName} {memo after : Memo} {text : String}
      (empty : memo.lookup cell = none)
      (rest : Resolves thunks names (thunks cell) ((cell, thunks cell) :: memo) text after) :
      Resolves thunks names (.deferred cell thunk) memo text after

/-- What a log shows by what the cells hold. -/
inductive Shows (memo : Memo) : TypeName → String → Prop
  | literal {text : String} : Shows memo (.literal text) text
  | element {host : Element} : Shows memo (.element host) ("<" ++ host.ident ++ ">")
  | empty {cell : Nat} {thunk : TypeName} (empty : memo.lookup cell = none) :
      Shows memo (.deferred cell thunk) "<deferred>"
  | held {cell : Nat} {thunk name : TypeName} {text : String}
      (filled : memo.lookup cell = some name) (rest : Shows memo name text) :
      Shows memo (.deferred cell thunk) text

variable {thunks : Nat → TypeName} {names : ElementNames}

/-- The text does not depend on the thunks that have run. -/
theorem read_text (names : ElementNames) (name : TypeName) (runs : ThunkRuns) :
    (name.read names runs).1 = name.resolve names := by
  induction name generalizing runs with
  | literal | element => rfl
  | deferred cell thunk ih => exact ih _

theorem mem_read (names : ElementNames) (name : TypeName) (runs : ThunkRuns) {cell : Nat} :
    cell ∈ (name.read names runs).2 ↔ cell ∈ runs ∨ cell ∈ name.cells := by
  induction name generalizing runs with
  | literal | element => simp [read, cells]
  | deferred first thunk ih =>
    rw [read, ih, cells, List.mem_cons, ← or_assoc]
    split
    next h => exact or_congr_left ⟨Or.inl, fun hc => hc.elim id fun he => he ▸ h⟩
    next => rw [List.mem_cons, or_comm (a := cell ∈ runs)]

theorem nodup_read (names : ElementNames) (name : TypeName) {runs : ThunkRuns} (h : runs.Nodup) :
    (name.read names runs).2.Nodup := by
  induction name generalizing runs with
  | literal | element => exact h
  | deferred cell thunk ih =>
    apply ih
    split
    next => exact h
    next hnew => exact List.nodup_cons.mpr ⟨hnew, h⟩

theorem suffix_read (names : ElementNames) (name : TypeName) (runs : ThunkRuns) :
    runs <:+ (name.read names runs).2 := by
  induction name generalizing runs with
  | literal | element => exact List.suffix_refl runs
  | deferred cell thunk ih =>
    refine List.IsSuffix.trans ?_ (ih _)
    split
    next => exact List.suffix_refl runs
    next => exact List.suffix_cons cell runs

theorem Follows.cells_subset {name : TypeName} (h : name.Follows thunks) {cell : Nat}
    (hcell : cell ∈ name.cells) : (thunks cell).cells ⊆ name.cells := by
  induction name with
  | literal | element => cases hcell
  | deferred first thunk ih =>
    obtain ⟨hfirst, hrest⟩ := h
    rcases List.mem_cons.mp hcell with rfl | hcell
    · rw [hfirst]
      exact List.subset_cons_self _ _
    · exact List.Subset.trans (ih hrest hcell) (List.subset_cons_self _ _)

/-- Once all thunks on its way have run, a name shows what it settles to. -/
theorem debugText_of_subset {name : TypeName} {runs : ThunkRuns} (h : name.cells ⊆ runs) :
    name.debugText runs = name.settled.debugText [] := by
  induction name with
  | literal | element => rfl
  | deferred cell thunk ih =>
    rw [cells, List.cons_subset] at h
    rw [debugText, if_pos h.1, settled, ih h.2]

section Steps

variable {cell : Nat} {thunk name : TypeName} {memo after : Memo} {text : String}

theorem resolves_literal_iff {literal : String} :
    Resolves thunks names (.literal literal) memo text after ↔ text = literal ∧ after = memo := by
  constructor
  · rintro ⟨⟩
    exact ⟨rfl, rfl⟩
  · rintro ⟨rfl, rfl⟩
    exact .literal

theorem resolves_element_iff {host : Element} :
    Resolves thunks names (.element host) memo text after ↔
      text = names.nameOf host ∧ after = memo := by
  constructor
  · rintro ⟨⟩
    exact ⟨rfl, rfl⟩
  · rintro ⟨rfl, rfl⟩
    exact .element

theorem resolves_held_iff (h : memo.lookup cell = some name) :
    Resolves thunks names (.deferred cell thunk) memo text after ↔
      Resolves thunks names name memo text after := by
  constructor
  · rintro (_ | _ | ⟨filled, rest⟩ | ⟨empty, -⟩)
    · obtain rfl := Option.some.inj (h.symm.trans filled)
      exact rest
    · cases h.symm.trans empty
  · exact .held h

theorem resolves_empty_iff (h : memo.lookup cell = none) :
    Resolves thunks names (.deferred cell thunk) memo text after ↔
      Resolves thunks names (thunks cell) ((cell, thunks cell) :: memo) text after := by
  constructor
  · rintro (_ | _ | ⟨filled, -⟩ | ⟨-, rest⟩)
    · cases h.symm.trans filled
    · exact rest
  · exact .run h

theorem shows_literal_iff {literal : String} :
    Shows memo (.literal literal) text ↔ text = literal := by
  constructor
  · rintro ⟨⟩
    rfl
  · rintro rfl
    exact .literal

theorem shows_element_iff {host : Element} :
    Shows memo (.element host) text ↔ text = "<" ++ host.ident ++ ">" := by
  constructor
  · rintro ⟨⟩
    rfl
  · rintro rfl
    exact .element

theorem shows_held_iff (h : memo.lookup cell = some name) :
    Shows memo (.deferred cell thunk) text ↔ Shows memo name text := by
  constructor
  · rintro (_ | _ | empty | ⟨filled, rest⟩)
    · cases h.symm.trans empty
    · obtain rfl := Option.some.inj (h.symm.trans filled)
      exact rest
  · exact .held h

theorem shows_empty_iff (h : memo.lookup cell = none) :
    Shows memo (.deferred cell thunk) text ↔ text = "<deferred>" := by
  constructor
  · rintro (_ | _ | empty | ⟨filled, -⟩)
    · rfl
    · cases h.symm.trans filled
  · rintro rfl
    exact .empty h

end Steps

/-- Reading a name is resolution by what the cells hold. -/
theorem resolves_iff {name : TypeName} (h : name.Follows thunks) {runs : ThunkRuns} {text : String}
    {after : Memo} :
    Resolves thunks names name (runs.memo thunks) text after ↔
      text = name.resolve names ∧ after = ThunkRuns.memo thunks (name.read names runs).2 := by
  induction name generalizing runs with
  | literal => exact resolves_literal_iff
  | element => exact resolves_element_iff
  | deferred cell thunk ih =>
    obtain ⟨rfl, hrest⟩ := h
    have hlookup := ThunkRuns.lookup_memo thunks runs cell
    rw [resolve, read]
    by_cases hcell : cell ∈ runs
    · rw [if_pos hcell] at hlookup ⊢
      rw [resolves_held_iff hlookup]
      exact ih hrest
    · rw [if_neg hcell] at hlookup ⊢
      rw [resolves_empty_iff hlookup, ← ih hrest]
      rfl

theorem shows_iff {name : TypeName} (h : name.Follows thunks) {runs : ThunkRuns} {text : String} :
    Shows (runs.memo thunks) name text ↔ text = name.debugText runs := by
  induction name with
  | literal => exact shows_literal_iff
  | element => exact shows_element_iff
  | deferred cell thunk ih =>
    obtain ⟨rfl, hrest⟩ := h
    have hlookup := ThunkRuns.lookup_memo thunks runs cell
    rw [debugText]
    by_cases hcell : cell ∈ runs
    · rw [if_pos hcell] at hlookup ⊢
      rw [shows_held_iff hlookup]
      exact ih hrest
    · rw [if_neg hcell] at hlookup ⊢
      exact shows_empty_iff hlookup

end TypeName

/-- What a program does with a name, which is meant by its place among those the program holds. -/
inductive NameRequest
  | resolve (place : Nat) (names : ElementNames)
  | debug (place : Nat)
  | clone (place : Nat)

/-- The names that a program holds, copies included, and the cells whose thunks have run. -/
structure NamePool where
  held : List TypeName
  runs : ThunkRuns := []

namespace NamePool

/-- The answer to a request, if it has one. A copy shares the cells of the name. -/
def perform (pool : NamePool) : NameRequest → Option String × NamePool
  | .resolve place names =>
    match pool.held[place]? with
    | none => (none, pool)
    | some name =>
      let (text, runs) := name.read names pool.runs
      (some text, { pool with runs := runs })
  | .debug place => (pool.held[place]?.map (·.debugText pool.runs), pool)
  | .clone place => (none, { pool with held := pool.held ++ pool.held[place]?.toList })

def performAll (pool : NamePool) (requests : List NameRequest) : NamePool :=
  requests.foldl (fun pool request => (pool.perform request).2) pool

/-- Some request resolves a name with the cell on its way. -/
def Reaches (pool : NamePool) (requests : List NameRequest) (cell : Nat) : Prop :=
  ∃ before place names after, requests = before ++ .resolve place names :: after ∧
    ∃ name, (pool.performAll before).held[place]? = some name ∧ cell ∈ name.cells

variable {pool start : NamePool} {requests : List NameRequest}

theorem performAll_concat (pool : NamePool) (requests : List NameRequest) (request : NameRequest) :
    pool.performAll (requests ++ [request]) = ((pool.performAll requests).perform request).2 :=
  List.foldl_concat _ _ _ _

/-- All that a request can do: it reads a name, or it adds copies of held ones. -/
theorem perform_cases (pool : NamePool) (request : NameRequest) :
    (∃ place names name, request = .resolve place names ∧ pool.held[place]? = some name ∧
      (pool.perform request).2 = { pool with runs := (name.read names pool.runs).2 }) ∨
    ∃ copies, copies ⊆ pool.held ∧
      (pool.perform request).2 = { pool with held := pool.held ++ copies } ∧
      ∀ place names name, request = .resolve place names → pool.held[place]? ≠ some name := by
  have hnone : pool = { pool with held := pool.held ++ [] } := by rw [List.append_nil]
  cases request with
  | resolve place names =>
    rw [perform]
    split
    next hplace =>
      refine Or.inr ⟨[], List.nil_subset _, hnone, ?_⟩
      rintro _ _ name ⟨⟩
      rw [hplace]
      exact nofun
    next name hplace => exact Or.inl ⟨place, names, name, rfl, hplace, rfl⟩
  | debug place => exact Or.inr ⟨[], List.nil_subset _, hnone, nofun⟩
  | clone place =>
    refine Or.inr ⟨pool.held[place]?.toList, fun name hname => ?_, rfl, nofun⟩
    exact List.mem_of_getElem? (Option.mem_toList.mp hname)

theorem mem_runs_perform {request : NameRequest} {cell : Nat} :
    cell ∈ (pool.perform request).2.runs ↔ cell ∈ pool.runs ∨
      ∃ place names, request = .resolve place names ∧
        ∃ name, pool.held[place]? = some name ∧ cell ∈ name.cells := by
  rcases pool.perform_cases request with
    ⟨place, names, name, rfl, hname, hnext⟩ | ⟨copies, -, hnext, hother⟩
  · rw [hnext, TypeName.mem_read]
    apply or_congr_right
    constructor
    · intro hcell
      exact ⟨place, names, rfl, name, hname, hcell⟩
    · rintro ⟨_, _, ⟨⟩, other, hother, hcell⟩
      obtain rfl := Option.some.inj (hname.symm.trans hother)
      exact hcell
  · rw [hnext]
    refine ⟨Or.inl, fun h => h.elim id ?_⟩
    rintro ⟨place, names, rfl, name, hname, -⟩
    exact absurd hname (hother place names name rfl)

theorem reaches_concat {request : NameRequest} {cell : Nat} :
    pool.Reaches (requests ++ [request]) cell ↔ pool.Reaches requests cell ∨
      ∃ place names, request = .resolve place names ∧
        ∃ name, (pool.performAll requests).held[place]? = some name ∧ cell ∈ name.cells := by
  constructor
  · rintro ⟨before, place, names, after, hsplit, hreached⟩
    rcases List.eq_nil_or_concat after with rfl | ⟨rest, last, rfl⟩
    · obtain ⟨rfl, hlast⟩ := List.append_inj' hsplit rfl
      exact Or.inr ⟨place, names, List.head_eq_of_cons_eq hlast, hreached⟩
    · rw [List.concat_eq_append, ← List.cons_append, ← List.append_assoc] at hsplit
      obtain ⟨rfl, -⟩ := List.append_inj' hsplit rfl
      exact Or.inl ⟨before, place, names, rest, rfl, hreached⟩
  · rintro (⟨before, place, names, after, rfl, hreached⟩ | ⟨place, names, rfl, hreached⟩)
    · exact ⟨before, place, names, after ++ [request], by simp, hreached⟩
    · exact ⟨requests, place, names, [], rfl, hreached⟩

/-- A thunk has run if and only if some request has led to it. -/
theorem mem_runs_iff (hstart : start.runs = []) {cell : Nat} :
    cell ∈ (start.performAll requests).runs ↔ start.Reaches requests cell := by
  induction requests using List.reverseRecOn with
  | nil =>
    rw [performAll, List.foldl_nil, hstart]
    refine iff_of_false List.not_mem_nil ?_
    rintro ⟨before, place, names, after, hsplit, -⟩
    exact absurd hsplit.symm (List.append_ne_nil_of_right_ne_nil _ (List.cons_ne_nil _ _))
  | append_singleton requests request ih =>
    rw [performAll_concat, mem_runs_perform, ih, reaches_concat]

structure Sound (thunks : Nat → TypeName) (pool : NamePool) : Prop where
  follows : ∀ name ∈ pool.held, name.Follows thunks
  once : pool.runs.Nodup
  /-- A name is resolved down to its text. -/
  closed : ∀ cell ∈ pool.runs, (thunks cell).cells ⊆ pool.runs

variable {thunks : Nat → TypeName}

theorem Sound.perform (h : pool.Sound thunks) (request : NameRequest) :
    (pool.perform request).2.Sound thunks := by
  rcases pool.perform_cases request with
    ⟨place, names, name, -, hname, hnext⟩ | ⟨copies, hcopies, hnext, -⟩
  · rw [hnext]
    have hfollows := h.follows name (List.mem_of_getElem? hname)
    refine ⟨h.follows, TypeName.nodup_read names name h.once, fun cell hcell other hother => ?_⟩
    rw [TypeName.mem_read] at hcell ⊢
    rcases hcell with hbefore | hread
    · exact Or.inl (h.closed cell hbefore hother)
    · exact Or.inr (hfollows.cells_subset hread hother)
  · rw [hnext]
    refine ⟨?_, h.once, h.closed⟩
    rw [List.forall_mem_append]
    exact ⟨h.follows, fun name hname => h.follows name (hcopies hname)⟩

theorem Sound.performAll (h : start.Sound thunks) (requests : List NameRequest) :
    (start.performAll requests).Sound thunks := by
  induction requests using List.reverseRecOn with
  | nil => exact h
  | append_singleton requests request ih =>
    rw [performAll_concat]
    exact ih.perform request

/-- How a pool stands when resolutions have reached some cells, and what it answers next. -/
structure EvaluatesLazily (thunks : Nat → TypeName) (reached : Nat → Prop) (pool : NamePool) :
    Prop where
  once : pool.runs.Nodup
  ran : ∀ cell, cell ∈ pool.runs ↔ reached cell
  kept : ∀ request, pool.runs <:+ (pool.perform request).2.runs
  /-- A name is resolved as one of which no thunk has run, and by what the cells hold. -/
  resolved : ∀ place name names, pool.held[place]? = some name →
    ∃ next, pool.perform (.resolve place names) = (some (name.read names []).1, next) ∧
      (name.read names []).1 = name.resolve names ∧
      ∀ text memo, name.Resolves thunks names (pool.runs.memo thunks) text memo ↔
        text = name.resolve names ∧ memo = next.runs.memo thunks
  /-- A log runs no thunk. -/
  shown : ∀ place name, pool.held[place]? = some name →
    pool.perform (.debug place) = (some (name.debugText pool.runs), pool) ∧
      ∀ text, name.Shows (pool.runs.memo thunks) text ↔ text = name.debugText pool.runs
  empty : ∀ cell thunk, .deferred cell thunk ∈ pool.held → ¬reached cell →
    (TypeName.deferred cell thunk).debugText pool.runs = "<deferred>"
  filled : ∀ cell thunk, .deferred cell thunk ∈ pool.held → reached cell →
    (TypeName.deferred cell thunk).debugText pool.runs = thunk.debugText pool.runs ∧
      thunk.debugText pool.runs = thunk.settled.debugText []
  cloned : ∀ place name, pool.held[place]? = some name →
    pool.perform (.clone place) = (none, { pool with held := pool.held ++ [name] })

theorem runs_suffix_perform (pool : NamePool) (request : NameRequest) :
    pool.runs <:+ (pool.perform request).2.runs := by
  rcases pool.perform_cases request with ⟨place, names, name, -, -, hnext⟩ | ⟨copies, -, hnext, -⟩
  · rw [hnext]
    exact TypeName.suffix_read names name pool.runs
  · rewrite [hnext]
    exact List.suffix_refl pool.runs

/-- Whatever a program does with its names, thunks run when they are first resolved and not again,
and a name resolves under the element names of the moment. -/
theorem evaluatesLazily {held : List TypeName} (h : ∀ name ∈ held, name.Follows thunks)
    (requests : List NameRequest) :
    ((NamePool.mk held []).performAll requests).EvaluatesLazily thunks
      ((NamePool.mk held []).Reaches requests) := by
  have hstart : (NamePool.mk held []).Sound thunks := ⟨h, List.nodup_nil, nofun⟩
  have hsound := hstart.performAll requests
  have hran (cell : Nat) : cell ∈ ((NamePool.mk held []).performAll requests).runs ↔
      (NamePool.mk held []).Reaches requests cell := mem_runs_iff rfl
  generalize (NamePool.mk held []).performAll requests = pool at hsound hran
  refine
    { once := hsound.once
      ran := hran
      kept := pool.runs_suffix_perform
      resolved := fun place name names hname => ?_
      shown := fun place name hname => ?_
      empty := fun cell thunk _ hreached => if_neg fun hcell => hreached ((hran cell).mp hcell)
      filled := fun cell thunk hheld hreached => ?_
      cloned := fun place name hname => ?_ }
  · have hfollows := hsound.follows name (List.mem_of_getElem? hname)
    have hfresh := TypeName.read_text names name []
    refine ⟨{ pool with runs := (name.read names pool.runs).2 }, ?_, hfresh,
      fun text memo => TypeName.resolves_iff hfollows⟩
    rw [perform, hname, hfresh, ← TypeName.read_text names name pool.runs]
  · have hfollows := hsound.follows name (List.mem_of_getElem? hname)
    refine ⟨?_, fun text => TypeName.shows_iff hfollows⟩
    rw [perform, hname, Option.map_some]
  · have hcell := (hran cell).mpr hreached
    have hclosed := hsound.closed cell hcell
    rw [(hsound.follows _ hheld).1] at hclosed
    exact ⟨if_pos hcell, TypeName.debugText_of_subset hclosed⟩
  · rw [perform, hname, Option.toList_some]

def puppies : NamePool :=
  let inner : TypeName := .deferred 0 (.element ⟨"app::Dog"⟩)
  { held := [.deferred 1 inner, inner] }

/-- The inner name is resolved through a copy of the outer one, and the element is renamed then. -/
theorem evaluatesLazily_puppies :
    let thunks : Nat → TypeName
      | 0 => .element ⟨"app::Dog"⟩
      | _ => .deferred 0 (.element ⟨"app::Dog"⟩)
    let requests : List NameRequest := [.debug 0, .clone 0, .resolve 2 []]
    let pool := puppies.performAll requests
    (∀ name ∈ puppies.held, name.Follows thunks) ∧
      (puppies.perform (.debug 1)).1 = some "<deferred>" ∧
      (pool.perform (.debug 1)).1 = some ("<" ++ Element.ident ⟨"app::Dog"⟩ ++ ">") ∧
      (pool.perform (.resolve 0 [("app::Dog", "Hound")])).1 = some "Hound" ∧
      pool.EvaluatesLazily thunks (puppies.Reaches requests) := by
  intro thunks requests pool
  have hfollows : ∀ name ∈ puppies.held, name.Follows thunks := by
    simp only [puppies, List.forall_mem_cons]
    exact ⟨⟨rfl, rfl, trivial⟩, ⟨rfl, trivial⟩, nofun⟩
  exact ⟨hfollows, rfl, rfl, by decide +kernel, evaluatesLazily hfollows requests⟩

end NamePool

end Schemata
