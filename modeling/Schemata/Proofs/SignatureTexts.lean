import Schemata.GraphQL.TypeRef
import Schemata.Proofs.Fulfilment
import Schemata.Proofs.ParentWalk

namespace Schemata

namespace Signature

/-- The named type contains none of the characters that mark a list or non-null. -/
def Plain (signature : Signature) : Prop :=
  ∀ mark ∈ ['[', ']', '!'], mark ∉ signature.namedType.toList

instance (signature : Signature) : Decidable signature.Plain :=
  List.decidableBAll (fun mark => mark ∉ signature.namedType.toList) ['[', ']', '!']

theorem toList_text_list (item : Signature) :
    (list item).text.toList = '[' :: item.text.toList ++ [']'] := by
  simp [text]

theorem toList_text_nonNull (inner : Signature) :
    (nonNull inner).text.toList = inner.text.toList ++ ['!'] := by
  simp [text]

/-- The last character of a text tells the outermost wrapper. -/
theorem getLast?_text {signature : Signature} (h : signature.Plain) :
    match signature with
    | .named _ => signature.text.toList.getLast? ≠ some ']' ∧
        signature.text.toList.getLast? ≠ some '!'
    | .list _ => signature.text.toList.getLast? = some ']'
    | .nonNull _ => signature.text.toList.getLast? = some '!' := by
  cases signature with
  | named name =>
    exact ⟨fun hlast => h ']' (by decide) (List.mem_of_getLast? hlast),
      fun hlast => h '!' (by decide) (List.mem_of_getLast? hlast)⟩
  | list item =>
    rw [toList_text_list]
    exact List.getLast?_concat ..
  | nonNull inner =>
    rw [toList_text_nonNull]
    exact List.getLast?_concat ..

theorem eq_of_text {signature other : Signature} (h : signature.Plain) (ho : other.Plain)
    (htext : signature.text = other.text) : signature = other := by
  induction signature generalizing other with
  | named name =>
    have hlast := getLast?_text h
    rw [htext] at hlast
    cases other with
    | named => exact congrArg named htext
    | list => exact absurd (getLast?_text ho) hlast.1
    | nonNull => exact absurd (getLast?_text ho) hlast.2
  | list item ih =>
    have hlast := getLast?_text h
    rw [htext] at hlast
    cases other with
    | named => exact absurd hlast (getLast?_text ho).1
    | list other =>
      have hchars := congrArg String.toList htext
      rw [toList_text_list, toList_text_list] at hchars
      have hinner := List.cons.inj (List.append_cancel_right hchars)
      exact congrArg list (ih h ho (String.toList_inj.mp hinner.2))
    | nonNull => cases hlast.symm.trans (getLast?_text ho)
  | nonNull inner ih =>
    have hlast := getLast?_text h
    rw [htext] at hlast
    cases other with
    | named => exact absurd hlast (getLast?_text ho).2
    | list => cases hlast.symm.trans (getLast?_text ho)
    | nonNull other =>
      have hchars := congrArg String.toList htext
      rw [toList_text_nonNull, toList_text_nonNull] at hchars
      exact congrArg nonNull (ih h ho (String.toList_inj.mp (List.append_cancel_right hchars)))

end Signature

namespace GraphQL.TypeRef

theorem text_ofSignature (signature : Signature) :
    (ofSignature signature).text = signature.text := by
  induction signature with
  | named name => rfl
  | list item ih => rw [ofSignature, text, ih, Signature.text]
  | nonNull inner ih => rw [ofSignature, text, ih, Signature.text]

theorem ofSignature_injective : Function.Injective ofSignature := by
  intro signature other h
  induction signature generalizing other with
  | named name =>
    cases other with
    | named => exact congrArg Signature.named (TypeRef.named.inj h)
    | list | nonNull => cases h
  | list item ih =>
    cases other with
    | list => exact congrArg Signature.list (ih (TypeRef.list.inj h))
    | named | nonNull => cases h
  | nonNull inner ih =>
    cases other with
    | nonNull => exact congrArg Signature.nonNull (ih (TypeRef.nonNull.inj h))
    | named | list => cases h

end GraphQL.TypeRef

def ShownIn (text message : String) : Prop :=
  ∃ before after, message = before ++ text ++ after

namespace ShownIn

theorem last (front text : String) : ShownIn text (front ++ text) :=
  ⟨front, "", String.append_empty.symm⟩

theorem append {text message : String} (h : ShownIn text message) (more : String) :
    ShownIn text (message ++ more) := by
  obtain ⟨before, after, rfl⟩ := h
  exact ⟨before, after ++ more, String.append_assoc⟩

theorem prepend {text message : String} (h : ShownIn text message) (front : String) :
    ShownIn text (front ++ message) := by
  obtain ⟨before, after, rfl⟩ := h
  exact ⟨front ++ before, after, by simp only [String.append_assoc]⟩

end ShownIn

namespace Problem

/-- The problem sets two types against each other: the one that is asked for and the one found. -/
inductive Contrasts : Problem → Signature → Signature → Prop
  | field {interface object field : String} {expected found : Signature} :
      Contrasts (.interfaceFieldMismatch interface object field expected found) expected found
  | argument {interface object field argument : String} {expected found : Signature} :
      Contrasts (.interfaceArgumentMismatch interface object field argument
        (.differs expected found)) expected found

variable {problem : Problem} {expected found : Signature}

theorem Contrasts.shown (h : problem.Contrasts expected found) :
    ShownIn expected.text problem.message ∧ ShownIn found.text problem.message := by
  cases h with
  | field =>
    unfold message
    dsimp only
    exact ⟨.last _ _, ((((ShownIn.last _ _).append _).append _).append _).append _⟩
  | argument =>
    unfold message ArgumentMismatch.text
    dsimp only
    exact ⟨(((ShownIn.last _ _).append _).append _).prepend _, (ShownIn.last _ _).prepend _⟩

theorem Contrasts.requirement (h : problem.Contrasts expected found) :
    problem.requirement? ≠ none := by
  cases h with
  | field | argument => exact Option.some_ne_none _

end Problem

namespace Catalog

variable {catalog : Catalog} {problem : Problem}

theorem requirement_of_lineage {name : String} (h : catalog.lineage name = .error problem) :
    problem.requirement? = none := by
  rw [lineage_eq_error_iff] at h
  cases h with
  | undeclared => rfl
  | link _ fault =>
    cases fault with
    | cyclic | undeclared | incompatible => rfl

theorem requirement_of_interfacesOf {object : String} {problems : List Problem}
    (h : catalog.interfacesOf object = .error problems) (hproblem : problem ∈ problems) :
    problem.requirement? = none := by
  cases hl : catalog.lineage object with
  | error first =>
    rw [interfacesOf, hl] at h
    cases h
    rw [List.mem_singleton.mp hproblem]
    exact requirement_of_lineage hl
  | ok chain =>
    rw [interfacesOf_of_isLineage (lineage_eq_ok_iff.mp hl)] at h
    split at h
    next => cases h
    next =>
      cases h
      obtain ⟨⟨type, interface⟩, -, hfound⟩ := List.mem_filterMap.mp hproblem
      have himplemented := problemOf_eq_some_iff.mp hfound
      rw [implementedBy] at himplemented
      split at himplemented
      next => cases himplemented; rfl
      next =>
        split at himplemented
        next => cases himplemented; rfl
        next => exact requirement_of_lineage himplemented

end Catalog

namespace Requirement

variable {catalog : Catalog} {effective : Table FieldSet}

theorem ne_of_differs {asked taken : Table Signature} {argument : String}
    {expected found : Signature}
    (h : (argument, .differs expected found) ∈ argumentMismatches asked taken) :
    expected ≠ found := by
  rw [argumentMismatches, List.mem_append, List.mem_filterMap, List.mem_filterMap] at h
  rcases h with ⟨⟨name, type⟩, -, htold⟩ | ⟨⟨name, type⟩, -, htold⟩
  · dsimp only at htold
    split at htold
    next => cases htold
    next =>
      split at htold
      next => cases htold
      next hne => cases htold; exact Ne.symm hne
  · dsimp only at htold
    split at htold
    next => cases htold
    next => cases htold

theorem ne_of_fieldViolations {object interface name : String} {required : SeenField}
    {candidate : Option SeenField} {problem : Problem} {expected found : Signature}
    (h : problem ∈ fieldViolations catalog effective object interface name required candidate)
    (hcontrasts : problem.Contrasts expected found) : expected ≠ found := by
  cases candidate with
  | none =>
    obtain rfl := List.mem_singleton.mp h
    cases hcontrasts
  | some candidate =>
    rw [fieldViolations] at h
    dsimp only at h
    split at h
    next hne =>
      obtain rfl := List.mem_singleton.mp h
      cases hcontrasts
      exact Ne.symm hne
    next =>
      obtain ⟨⟨argument, mismatch⟩, hmismatch, rfl⟩ := List.mem_map.mp h
      cases hcontrasts
      exact ne_of_differs hmismatch

end Requirement

namespace Fulfilment

variable {catalog : Catalog} {effective : Table FieldSet} {inherit : Bool} {problem : Problem}

theorem requirement_of_interfaces {names : List String}
    (h : problem ∈ (names.foldl (recordInterface catalog) ⟨{}, effective, []⟩).problems) :
    problem.requirement? = none := by
  induction names using List.reverseRecOn with
  | nil => cases h
  | append_singleton names name ih =>
    rw [List.foldl_concat, recordInterface] at h
    split at h
    next => exact ih h
    next problem hl =>
      rcases List.mem_append.mp h with hbefore | hlast
      · exact ih hbefore
      · rw [List.mem_singleton.mp hlast]
        exact Catalog.requirement_of_lineage hl

theorem ne_of_objectProblems {object : String} {expected found : Signature}
    (h : problem ∈ objectProblems catalog effective inherit object)
    (hcontrasts : problem.Contrasts expected found) : expected ≠ found := by
  rw [objectProblems] at h
  split at h
  next problems hi =>
    exact absurd (Catalog.requirement_of_interfacesOf hi h) hcontrasts.requirement
  next =>
    split at h
    next => cases h
    next =>
      obtain ⟨_, -, hviolated⟩ := List.mem_flatMap.mp h
      exact Requirement.ne_of_fieldViolations hviolated hcontrasts

/-- Validation tells of two types only where they are different, in any catalog. -/
theorem ne_of_run_problems {expected found : Signature}
    (h : problem ∈ (run catalog effective inherit).problems)
    (hcontrasts : problem.Contrasts expected found) : expected ≠ found := by
  rw [run] at h
  generalize Table.keys (catalog.typesOfKind .object) = objects at h
  induction objects using List.reverseRecOn with
  | nil => exact absurd (requirement_of_interfaces h) hcontrasts.requirement
  | append_singleton objects object ih =>
    rw [List.foldl_concat] at h
    -- A type may come again here, so that a check reads what earlier ones have left.
    rcases checkObject_cases (.refl _ object) inherit with
      ⟨problems, hi, he⟩ | ⟨_, _, _, he⟩ | ⟨_, _, _, _, he⟩
    · rw [he] at h
      rcases mem_noteAll.mp h with hbefore | hlast
      · exact ih hbefore
      · exact absurd (Catalog.requirement_of_interfacesOf hi hlast) hcontrasts.requirement
    · rw [he] at h
      exact ih h
    · rw [he] at h
      rcases List.mem_append.mp h with hbefore | hlast
      · exact ih hbefore
      · exact ne_of_objectProblems hlast hcontrasts

end Fulfilment

/-- Signatures with plain names are the same if their texts are. A mismatch that validation reports
shows both of its types, and so two texts if their names are plain; and the served schema keeps
apart all signatures that validation does, and shows their texts. -/
theorem Signature.text_identifies {signature other : Signature} (h : signature.Plain)
    (ho : other.Plain) :
    (signature.text = other.text ↔ signature = other) ∧
    (∀ (catalog : Catalog) (effective : Table FieldSet) (inherit : Bool),
      ∀ problem ∈ reported (catalog.validate effective inherit).1,
        problem.Contrasts signature other →
          ShownIn signature.text problem.message ∧ ShownIn other.text problem.message ∧
            signature.text ≠ other.text) ∧
    Function.Injective GraphQL.TypeRef.ofSignature ∧
    ∀ any : Signature, (GraphQL.TypeRef.ofSignature any).text = any.text := by
  refine ⟨⟨eq_of_text h ho, congrArg text⟩, ?_, GraphQL.TypeRef.ofSignature_injective,
    GraphQL.TypeRef.text_ofSignature⟩
  intro catalog effective inherit problem hproblem hcontrasts
  rw [Catalog.validate, reported_unlessProblems] at hproblem
  obtain ⟨hexpected, hfound⟩ := hcontrasts.shown
  refine ⟨hexpected, hfound, fun htext => ?_⟩
  exact Fulfilment.ne_of_run_problems hproblem hcontrasts (eq_of_text h ho htext)

def Catalog.shipping : Catalog :=
  let size : TypeExpr := .named (.literal "Int")
  let entry (kind : TypeKind) (interfaces : List String) (sizes : TypeExpr) : TypeEntry :=
    ⟨kind, none, none, interfaces, [.new "sizes" sizes], none, none⟩
  { types := [("Sized", entry .interface [] (.nonNull (.list size))),
      ("Box", entry .object ["Sized"] (.list (.nonNull size)))] }

theorem Signature.text_identifies_sizes :
    let asked : Signature := .nonNull (.list (.named "Int"))
    let given : Signature := .list (.nonNull (.named "Int"))
    let problem : Problem := .interfaceFieldMismatch "Sized" "Box" "sizes" asked given
    asked.Plain ∧ given.Plain ∧ asked.text = "[Int]!" ∧ given.text = "[Int!]" ∧
      problem ∈ reported (Catalog.shipping.validate Catalog.shipping.flattened true).1 ∧
      problem.Contrasts asked given ∧ ShownIn "[Int]!" problem.message ∧
      ShownIn "[Int!]" problem.message ∧ asked.text ≠ given.text := by
  intro asked given problem
  have hasked : asked.Plain := by decide +kernel
  have hgiven : given.Plain := by decide +kernel
  have hproblem : problem ∈
      reported (Catalog.shipping.validate Catalog.shipping.flattened true).1 := by
    decide +kernel
  obtain ⟨-, hreported, -⟩ := text_identifies hasked hgiven
  obtain ⟨hshown, hother, hne⟩ := hreported _ _ _ problem hproblem .field
  exact ⟨hasked, hgiven, rfl, rfl, hproblem, .field, hshown, hother, hne⟩

end Schemata
