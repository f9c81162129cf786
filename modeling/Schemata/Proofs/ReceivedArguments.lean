import Schemata.Proofs.FilledInputs
import Schemata.Proofs.Relation

namespace Schemata.GraphQL

variable {inputs : Table InputType}

variable {provided : Table Value}

/-- The declared arguments that are provided or have a default. -/
def receivedArguments (provided : Table Value) (declared : List ModelArgument) :
    List ModelArgument :=
  declared.filter fun argument =>
    decide (argument.name ∈ Table.keys provided) || argument.default.isSome

theorem isSome_givenOrDefault (provided : Table Value) (argument : ModelArgument) :
    (givenOrDefault provided argument).isSome =
      (decide (argument.name ∈ Table.keys provided) || argument.default.isSome) := by
  rw [givenOrDefault]
  cases hfound : Table.get? provided argument.name with
  | some value => simp [Table.mem_keys_of_get? hfound]
  | none => simp [(Table.get?_eq_none_iff _ _).mp hfound]

theorem handlerArguments_concat (declared : List ModelArgument) (argument : ModelArgument) :
    handlerArguments inputs (declared ++ [argument]) provided =
      match givenOrDefault provided argument with
      | some value =>
        Table.insert (handlerArguments inputs declared provided) argument.name
          (fillOmitted inputs argument.type value)
      | none => handlerArguments inputs declared provided := by
  rw [handlerArguments, List.foldl_concat]
  rfl

theorem receivedArguments_concat (declared : List ModelArgument) (argument : ModelArgument) :
    receivedArguments provided (declared ++ [argument]) =
      match givenOrDefault provided argument with
      | some _ => receivedArguments provided declared ++ [argument]
      | none => receivedArguments provided declared := by
  rw [receivedArguments, List.filter_append, List.filter_singleton, ← isSome_givenOrDefault]
  cases givenOrDefault provided argument with
  | none => exact List.append_nil _
  | some value => rfl

theorem get?_handlerArguments (declared : List ModelArgument) (name : String) :
    Table.get? (handlerArguments inputs declared provided) name =
      ((receivedArguments provided declared).reverse.find? (·.name == name)).bind fun argument =>
        (givenOrDefault provided argument).map (fillOmitted inputs argument.type) := by
  induction declared using List.reverseRecOn with
  | nil => rfl
  | append_singleton declared argument ih =>
    rw [handlerArguments_concat, receivedArguments_concat]
    cases hgiven : givenOrDefault provided argument with
    | none => exact ih
    | some value =>
      dsimp only
      rw [Table.get?_insert, List.reverse_append, List.reverse_singleton, List.singleton_append,
        List.find?_cons]
      by_cases hname : argument.name = name
      · rw [if_pos hname, beq_iff_eq.mpr hname]
        dsimp only
        rw [Option.bind_some, hgiven, Option.map_some]
      · rw [if_neg hname, beq_eq_false_iff_ne.mpr hname]
        exact ih

theorem receivedNames_nodup {declared : List ModelArgument}
    (hn : (declared.map (·.name)).Nodup) :
    ((receivedArguments provided declared).map (·.name)).Nodup :=
  hn.sublist (List.filter_sublist.map _)

/-- Of several declarations of distinct names the one that has the name is found. -/
theorem find?_name_of_mem {α : Type} {name : α → String} {items : List α}
    (hn : (items.map name).Nodup) {item : α} (hitem : item ∈ items) :
    items.find? (fun other => name other == name item) = some item := by
  have hsome : (items.find? fun other => name other == name item).isSome :=
    List.find?_isSome.mpr ⟨item, hitem, beq_self_eq_true _⟩
  obtain ⟨found, hfound⟩ := Option.isSome_iff_exists.mp hsome
  have hname : (name found == name item) = true :=
    List.find?_some (p := fun other => name other == name item) hfound
  obtain rfl := List.inj_on_of_nodup_map hn (List.mem_of_find?_eq_some hfound) hitem
    (eq_of_beq hname)
  exact hfound

theorem get?_handlerArguments_of_mem {declared : List ModelArgument}
    (hn : (declared.map (·.name)).Nodup) {argument : ModelArgument} (hargument : argument ∈ declared)
    {value : Json} (hgiven : givenOrDefault provided argument = some value) :
    Table.get? (handlerArguments inputs declared provided) argument.name =
      some (fillOmitted inputs argument.type value) := by
  have hreceived : argument ∈ receivedArguments provided declared :=
    List.mem_filter.mpr
      ⟨hargument, by rw [← isSome_givenOrDefault, hgiven, Option.isSome_some]⟩
  have hnames : ((receivedArguments provided declared).reverse.map (·.name)).Nodup := by
    rw [List.map_reverse, List.nodup_reverse]
    exact receivedNames_nodup hn
  have hfound := find?_name_of_mem hnames (List.mem_reverse.mpr hreceived)
  rw [get?_handlerArguments, hfound, Option.bind_some, hgiven, Option.map_some]

end Schemata.GraphQL
