import Schemata.GraphQL.TypeGraph
import Schemata.Proofs.Analysis
import Schemata.Proofs.ShapedLists

namespace Schemata

theorem exists_mem_iff_of_forall₂ {α β : Type} {r : α → β → Prop} {p : α → Prop} {q : β → Prop}
    (hr : ∀ item value, r item value → (p item ↔ q value)) {items : List α} {values : List β}
    (h : List.Forall₂ r items values) : (∃ item ∈ items, p item) ↔ ∃ value ∈ values, q value := by
  induction h with
  | nil => exact iff_of_false nofun nofun
  | cons hvalue _ ih => rw [List.exists_mem_cons_iff, List.exists_mem_cons_iff, hr _ _ hvalue, ih]

namespace GraphQL

namespace Shaped

/-- The leaves of a value, at any depth; a null is none. -/
inductive Holds : Shaped → Shaped → Prop
  | here {value : Shaped} (isLeaf : value.IsLeaf) : Holds value value
  | item {items : List Shaped} {item leaf : Shaped} (mem : item ∈ items)
      (within : Holds item leaf) : Holds (.list items) leaf

def IsRecord : Shaped → Prop
  | .record .. => True
  | _ => False

theorem holds_iff_of_isLeaf {value : Shaped} (h : value.IsLeaf) {leaf : Shaped} :
    value.Holds leaf ↔ leaf = value := by
  constructor
  · rintro (_ | ⟨-, -⟩)
    · rfl
    · cases h
  · rintro rfl
    exact .here h

theorem not_holds_null (leaf : Shaped) : ¬(Shaped.plain .null).Holds leaf := by
  rintro ⟨⟨⟩⟩

theorem holds_list_iff {items : List Shaped} {leaf : Shaped} :
    (Shaped.list items).Holds leaf ↔ ∃ item ∈ items, item.Holds leaf := by
  constructor
  · rintro (⟨⟨⟩⟩ | ⟨mem, within⟩)
    exact ⟨_, mem, within⟩
  · rintro ⟨item, mem, within⟩
    exact .item mem within

end Shaped

theorem meets_nonNull_named_iff {inner : Signature} {name : String} {output found : Output} :
    Meets (.nonNull inner) output (.named name) found ↔ Meets inner output (.named name) found := by
  constructor
  · rintro ⟨⟩
    assumption
  · exact .nonNull

theorem meets_list_named_iff {item : Signature} {name : String} {output found : Output} :
    Meets (.list item) output (.named name) found ↔
      ∃ items, output.opened = .list items ∧
        ∃ entry ∈ items, Meets item entry (.named name) found := by
  constructor
  · rintro (_ | _ | ⟨opened, mem, within⟩)
    exact ⟨_, opened, _, mem, within⟩
  · rintro ⟨items, opened, entry, mem, within⟩
    exact .item opened mem within

/-- What a walk meets has nothing left to open. -/
theorem Meets.opened {type place : Signature} {output found : Output}
    (h : Meets type output place found) : found.opened = found := by
  induction h with
  | here type output => exact output.opened_opened
  | nonNull _ ih => exact ih
  | item _ _ _ ih => exact ih

namespace Shaping

variable {shaping : Shaping} {path : String}

theorem makesLeaf_opened_iff {type : String} {output : Output} {leaf : Shaped} :
    shaping.MakesLeaf path type output.opened leaf ↔ shaping.MakesLeaf path type output leaf := by
  rw [MakesLeaf, MakesLeaf, shapeNamed, shapeNamed, output.opened_opened]

/-- The leaves of a value are what the named type makes of the outputs that it meets. -/
theorem holds_iff_of_shape {type : Signature} {output : Output} {result : Option Shaped}
    (h : shaping.shape path type output = .ok result) (leaf : Shaped) :
    (result.getD (.plain .null)).Holds leaf ↔
      ∃ found, Meets type output (.named type.namedType) found ∧
        shaping.MakesLeaf path type.namedType found leaf := by
  induction type generalizing output result with
  | named name =>
    rw [shape] at h
    simp only [Signature.namedType, meets_named_iff, true_and, exists_eq_left, makesLeaf_opened_iff]
    rw [MakesLeaf, h, Except.ok.injEq]
    rcases leaf_of_shapeNamed h with ⟨-, rfl⟩ | ⟨-, value, rfl, hvalue⟩
    · exact iff_of_false (Shaped.not_holds_null leaf) (Option.some_ne_none leaf).symm
    · rw [Option.getD_some, Shaped.holds_iff_of_isLeaf hvalue, Option.some.injEq, eq_comm]
  | nonNull inner ih =>
    simp only [meets_nonNull_named_iff, Signature.namedType]
    exact ih (by rwa [shape] at h)
  | list item ih =>
    simp only [meets_list_named_iff, Signature.namedType]
    rcases shape_list_eq_ok_iff.mp h with ⟨hnull, rfl⟩ | ⟨items, values, hopened, rfl, hvalues⟩
    · refine iff_of_false (Shaped.not_holds_null leaf) ?_
      rintro ⟨_, ⟨_, hitems, -⟩, -⟩
      rw [hnull] at hitems
      cases hitems
    · rw [Option.getD_some, Shaped.holds_list_iff]
      -- The items and their values hold the same leaves, pair by pair.
      have heach := exists_mem_iff_of_forall₂
        (p := fun entry => ∃ found, Meets item entry (.named item.namedType) found ∧
          shaping.MakesLeaf path item.namedType found leaf)
        (q := fun value => value.Holds leaf) (fun entry value hvalue => by
          obtain ⟨result, hresult, rfl⟩ := Except.map_eq_ok_iff.mp hvalue
          exact (ih hresult).symm) hvalues
      rw [← heach]
      constructor
      · rintro ⟨entry, hentry, found, hmeets, hleaf⟩
        exact ⟨found, ⟨items, hopened, entry, hentry, hmeets⟩, hleaf⟩
      · rintro ⟨found, ⟨others, hothers, entry, hentry, hmeets⟩, hleaf⟩
        obtain rfl := Output.list.inj (hopened.symm.trans hothers)
        exact ⟨entry, hentry, found, hmeets, hleaf⟩

theorem shapeScalar_of_not_enum {type : String} (h : shaping.types.kindOf type ≠ some .enum)
    (value : Json) : shaping.shapeScalar value type = .plain (.ofJson value) := by
  unfold shapeScalar
  split
  next hkind => exact absurd hkind h
  next => rfl

/-- At a composite type a record makes a record, and a scalar the constant that it is. -/
theorem makesLeaf_iff_of_composite {type : String} (hkind : shaping.types.IsComposite type)
    {found : Output} (hopened : found.opened = found) {leaf : Shaped} :
    shaping.MakesLeaf path type found leaf ↔
      (∃ source, found = .record source ∧ shaping.shapeRecord source type path = .ok leaf) ∨
        ∃ value, found = .scalar value ∧ leaf = .plain (.ofJson value) := by
  rw [MakesLeaf, shapeNamed, hopened]
  cases found with
  | null => simp
  | list items => simp
  | record source => simp [Except.map_eq_ok_iff]
  | scalar value =>
    have henum : shaping.types.kindOf type ≠ some .enum := by
      intro h
      simp [TypeSystem.IsComposite, h] at hkind
    simp [shapeScalar_of_not_enum henum, eq_comm]

theorem holds_iff_of_composite {type : Signature}
    (hkind : shaping.types.IsComposite type.namedType) {output : Output} {value : Shaped}
    (h : shaping.shape path type output = .ok (some value)) (leaf : Shaped) :
    value.Holds leaf ↔
      (∃ source, Meets type output (.named type.namedType) (.record source) ∧
        shaping.shapeRecord source type.namedType path = .ok leaf) ∨
      ∃ scalar, Meets type output (.named type.namedType) (.scalar scalar) ∧
        leaf = .plain (.ofJson scalar) := by
  have hleaves := holds_iff_of_shape h leaf
  rw [Option.getD_some] at hleaves
  rw [hleaves]
  constructor
  · rintro ⟨found, hmeets, hleaf⟩
    rcases (makesLeaf_iff_of_composite hkind hmeets.opened).mp hleaf with
      ⟨source, rfl, hsource⟩ | ⟨scalar, rfl, hscalar⟩
    · exact Or.inl ⟨source, hmeets, hsource⟩
    · exact Or.inr ⟨scalar, hmeets, hscalar⟩
  · rintro (⟨source, hmeets, hsource⟩ | ⟨scalar, hmeets, hscalar⟩)
    · exact ⟨_, hmeets,
        (makesLeaf_iff_of_composite hkind hmeets.opened).mpr (Or.inl ⟨source, rfl, hsource⟩)⟩
    · exact ⟨_, hmeets,
        (makesLeaf_iff_of_composite hkind hmeets.opened).mpr (Or.inr ⟨scalar, rfl, hscalar⟩)⟩

end Shaping

/-- Where a composite type is asked for, a record becomes a record with its fields and a list is
refused, but a scalar is taken as it is: the leaves are all records just where none is met. -/
theorem shape_composite {shaping : Shaping} {type : Signature}
    (hkind : shaping.types.IsComposite type.namedType) (path : String) (output : Output) :
    (∀ value, shaping.shape path type output = .ok (some value) →
      (∀ leaf, value.Holds leaf ↔
        (∃ source, Meets type output (.named type.namedType) (.record source) ∧
          shaping.shapeRecord source type.namedType path = .ok leaf) ∨
        ∃ scalar, Meets type output (.named type.namedType) (.scalar scalar) ∧
          leaf = .plain (.ofJson scalar)) ∧
      ((∀ leaf, value.Holds leaf → leaf.IsRecord) ↔
        ∀ scalar, ¬Meets type output (.named type.namedType) (.scalar scalar))) ∧
    (∀ source leaf, shaping.shapeRecord source type.namedType path = .ok leaf →
      ∃ made concrete, leaf = .record made concrete ∧ made.fields = source.fields) ∧
    ∀ items, Meets type output (.named type.namedType) (.list items) →
      ∃ error, shaping.shape path type output = .error error := by
  refine ⟨fun value hvalue => ?_, fun source leaf => Shaping.record_of_shapeRecord hkind, ?_⟩
  · have hleaves := Shaping.holds_iff_of_composite hkind hvalue
    refine ⟨hleaves, ?_⟩
    constructor
    · intro hrecords scalar hmeets
      exact hrecords _ ((hleaves _).mpr (Or.inr ⟨scalar, hmeets, rfl⟩))
    · intro hnone leaf hleaf
      rcases (hleaves leaf).mp hleaf with ⟨source, -, hsource⟩ | ⟨scalar, hmeets, -⟩
      · obtain ⟨made, concrete, rfl, -⟩ := Shaping.record_of_shapeRecord hkind hsource
        trivial
      · exact absurd hmeets (hnone scalar)
  · intro items hmeets
    cases hshape : shaping.shape path type output with
    | error error => exact ⟨error, rfl⟩
    | ok result =>
      have hadmits := Shaping.exists_shape_iff.mp ⟨result, hshape⟩ _ _ hmeets
      exact absurd rfl (hadmits.names _ rfl items)

end GraphQL

def Registry.leash : Registry :=
  let name := FieldDeclaration.new "name" (.named (.literal "String"))
  { types := [{ TypeDeclaration.new .object "Dog" with fields := [name] }]
    resolvers := [(.literal "Store", .new .query "dog" (.named (.literal "Dog")) fun _ =>
      .ok (.scalar (.str "Rex")))] }

open GraphQL

theorem shape_composite_leash :
    let dogs := Output.list [.record ⟨none, []⟩, .null, .scalar (.str "Rex")]
    ∃ graph value, TypeGraph.ofRegistry {} Registry.leash [.literal "Store"] = .ok graph ∧
      graph.shaping.types.kindOf "Dog" = some .object ∧
      graph.shaping.shape "Query.dogs" (.list (.named "Dog")) dogs = .ok (some value) ∧
      value.Holds (.plain (.string "Rex")) ∧ ¬∀ leaf, value.Holds leaf → leaf.IsRecord := by
  intro dogs
  have hrun : (TypeGraph.ofRegistry {} Registry.leash [.literal "Store"]).toOption.any (fun graph =>
      decide (graph.shaping.types.kindOf "Dog" = some .object) &&
        (graph.shaping.shape "Query.dogs" (.list (.named "Dog")) dogs).toOption.any
          Option.isSome) = true := by
    decide +kernel
  obtain ⟨graph, hgraph, hfacts⟩ := exists_ok_of_any hrun
  rw [Bool.and_eq_true, decide_eq_true_eq] at hfacts
  obtain ⟨hkind, hshape⟩ := hfacts
  obtain ⟨result, hresult, hsome⟩ := exists_ok_of_any hshape
  obtain ⟨value, rfl⟩ := Option.isSome_iff_exists.mp hsome
  have hmeets : Meets (.list (.named "Dog")) dogs (.named "Dog") (.scalar (.str "Rex")) :=
    .item rfl (by simp) (.here (.named "Dog") (.scalar (.str "Rex")))
  obtain ⟨hleaves, hrecords⟩ :=
    (@shape_composite graph.shaping (.list (.named "Dog")) (Or.inl hkind) "Query.dogs" dogs).1
      value hresult
  exact ⟨graph, value, hgraph, hkind, hresult, (hleaves _).mpr (Or.inr ⟨_, hmeets, rfl⟩),
    fun hall => hrecords.mp hall _ hmeets⟩

/-- The string is answered as a dog without a name. -/
theorem execute_leash :
    ∃ graph value, TypeGraph.ofRegistry {} Registry.leash [.literal "Store"] = .ok graph ∧
      graph.shaping.types.kindOf "Dog" = some .object ∧
      graph.shaping.shape "Query.dog" (.named "Dog") (.scalar (.str "Rex")) = .ok (some value) ∧
      value.Holds (.plain (.string "Rex")) ∧ ¬(Shaped.plain (.string "Rex")).IsRecord ∧
      graph.execute ⟨.query, [], [.branch ⟨"dog", "dog", []⟩ [.leaf ⟨"name", "name", []⟩]]⟩ =
        .answered (.obj [("dog", .obj [("name", .null)])]) [] := by
  have hrun : (TypeGraph.ofRegistry {} Registry.leash [.literal "Store"]).toOption.any (fun graph =>
      decide (graph.shaping.types.kindOf "Dog" = some .object ∧
        graph.execute ⟨.query, [], [.branch ⟨"dog", "dog", []⟩ [.leaf ⟨"name", "name", []⟩]]⟩ =
          .answered (.obj [("dog", .obj [("name", .null)])]) [])) = true := by
    decide +kernel
  obtain ⟨graph, hgraph, hfacts⟩ := exists_ok_of_any hrun
  obtain ⟨hkind, hanswer⟩ := of_decide_eq_true hfacts
  have henum : graph.shaping.types.kindOf "Dog" ≠ some .enum := by
    rw [hkind]
    nofun
  refine ⟨graph, .plain (.string "Rex"), hgraph, hkind, ?_, .here trivial, id, hanswer⟩
  change Except.ok (some (graph.shaping.shapeScalar (.str "Rex") "Dog")) = _
  rw [Shaping.shapeScalar_of_not_enum henum]
  rfl

end Schemata
