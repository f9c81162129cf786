import Mathlib.Data.List.Nodup
import Schemata.Problem

namespace Schemata

def problemOf {α : Type} : Except Problem α → Option Problem
  | .ok _ => none
  | .error problem => some problem

@[simp] theorem problemOf_ok {α : Type} (value : α) :
    problemOf (Except.ok value : Except Problem α) = none := rfl

@[simp] theorem problemOf_error {α : Type} (problem : Problem) :
    problemOf (Except.error problem : Except Problem α) = some problem := rfl

theorem problemOf_eq_none_iff {α : Type} {result : Except Problem α} :
    problemOf result = none ↔ ∃ value, result = .ok value := by
  cases result <;> simp

theorem problemOf_eq_some_iff {α : Type} {result : Except Problem α} {problem : Problem} :
    problemOf result = some problem ↔ result = .error problem := by
  cases result <;> simp

theorem unlessProblems_eq_ok_iff {α : Type} {problems : List Problem} {value result : α} :
    unlessProblems problems value = .ok result ↔ problems = [] ∧ value = result := by
  cases problems <;> simp [unlessProblems]

theorem mem_toOption {ε α : Type} {result : Except ε α} {value : α} :
    value ∈ result.toOption ↔ result = .ok value := by
  cases result <;> simp [Except.toOption, eq_comm]

def reported {α : Type} : Except GenerationError α → List Problem
  | .ok _ => []
  | .error error => error.problems

theorem reported_unlessProblems {α : Type} (problems : List Problem) (value : α) :
    reported (unlessProblems problems value) = problems := by
  cases problems <;> rfl

/-- The object and the field that a problem with a required field is about. -/
def Problem.requirement? : Problem → Option (String × String)
  | .missingInterfaceField _ object field => some (object, field)
  | .interfaceFieldMismatch _ object field _ _ => some (object, field)
  | .interfaceArgumentMismatch _ object field _ _ => some (object, field)
  | _ => none

theorem mem_noteOnce {problems : List Problem} {problem other : Problem} :
    other ∈ noteOnce problems problem ↔ other ∈ problems ∨ other = problem := by
  unfold noteOnce
  split
  next h => exact ⟨Or.inl, fun ho => ho.elim id fun he => he ▸ h⟩
  next => rw [List.mem_append, List.mem_singleton]

def noteAll (problems found : List Problem) : List Problem :=
  found.foldl noteOnce problems

@[simp] theorem noteAll_nil (problems : List Problem) : noteAll problems [] = problems := rfl

@[simp] theorem noteAll_append (problems found more : List Problem) :
    noteAll problems (found ++ more) = noteAll (noteAll problems found) more :=
  List.foldl_append

theorem mem_noteAll {problems found : List Problem} {problem : Problem} :
    problem ∈ noteAll problems found ↔ problem ∈ problems ∨ problem ∈ found := by
  induction found generalizing problems with
  | nil => simp
  | cons first rest ih =>
    have hstep := @ih (noteOnce problems first)
    rw [mem_noteOnce, or_assoc] at hstep
    rw [List.mem_cons]
    exact hstep

theorem nodup_noteAll {problems found : List Problem} (h : problems.Nodup) :
    (noteAll problems found).Nodup := by
  induction found generalizing problems with
  | nil => exact h
  | cons first rest ih =>
    apply ih
    rw [noteOnce]
    split
    next => exact h
    next hnew =>
      rw [← List.concat_eq_append]
      exact h.concat hnew

theorem noteAll_eq_nil_iff {problems found : List Problem} :
    noteAll problems found = [] ↔ problems = [] ∧ found = [] := by
  simp only [List.eq_nil_iff_forall_not_mem, mem_noteAll, not_or, forall_and]

theorem noteAll_of_subset {problems found : List Problem} (h : found ⊆ problems) :
    noteAll problems found = problems := by
  induction found with
  | nil => rfl
  | cons first rest ih =>
    have hfirst : noteOnce problems first = problems := if_pos (h List.mem_cons_self)
    have hstep : noteAll problems (first :: rest) = noteAll (noteOnce problems first) rest := rfl
    rw [hstep, hfirst]
    exact ih fun problem hp => h (List.mem_cons_of_mem _ hp)

end Schemata
