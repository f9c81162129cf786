import Schemata.GraphQL.Arguments
import Schemata.Proofs.Documents

namespace Schemata

namespace GraphQL

def fieldNamed? (declared : List ModelArgument) (name : String) : Option ModelArgument :=
  declared.find? (·.name == name)

def defaultNamed? (declared : List ModelArgument) (name : String) : Option Json :=
  declared.findSome? fun field => if field.name = name then field.default else none

theorem defaultNamed?_cons (field : ModelArgument) (rest : List ModelArgument) (name : String) :
    defaultNamed? (field :: rest) name =
      (if field.name = name then field.default else none).or (defaultNamed? rest name) := by
  rw [defaultNamed?, List.findSome?_cons]
  split
  next hfound => rw [hfound, Option.some_or]
  next hnone => rw [hnone, Option.none_or, defaultNamed?]

theorem exists_defaultNamed? {declared : List ModelArgument} {field : ModelArgument}
    (hfield : field ∈ declared) (hdefault : field.default ≠ none) :
    ∃ default, defaultNamed? declared field.name = some default := by
  rw [← Option.isSome_iff_exists, defaultNamed?, List.findSome?_isSome_iff]
  exact ⟨field, hfield, by rw [if_pos rfl]; exact Option.isSome_iff_ne_none.mpr hdefault⟩

/-- What is added are the defaults of the names that are not there, each once. -/
theorem exists_gained (declared : List ModelArgument) (members : List (String × Json)) :
    ∃ gained : List (String × Json),
      (addOmitted declared members).Perm (members ++ gained) ∧ (Table.keys gained).Nodup ∧
      ∀ name value, (name, value) ∈ gained ↔
        name ∉ Table.keys members ∧ defaultNamed? declared name = some value := by
  induction declared generalizing members with
  | nil => exact ⟨[], by simp [addOmitted], List.nodup_nil, by simp [defaultNamed?]⟩
  | cons field rest ih =>
    rw [addOmitted, List.foldl_cons]
    split
    next default hdefault =>
      split
      next hthere =>
        obtain ⟨gained, hperm, honce, hmem⟩ := ih members
        refine ⟨gained, hperm, honce, fun name value => ?_⟩
        rw [hmem, defaultNamed?_cons]
        refine and_congr_right fun hname => ?_
        have hne : field.name ≠ name := fun he => hname (he ▸ Table.contains_iff.mp hthere)
        rw [if_neg hne, Option.none_or]
      next hlacked =>
        rw [Table.contains_iff] at hlacked
        obtain ⟨gained, hperm, honce, hmem⟩ := ih (Json.insertMember field.name default members)
        have hfresh : field.name ∉ Table.keys gained := by
          intro hgained
          obtain ⟨value, hvalue⟩ := Table.exists_get?_of_mem_keys hgained
          have hmember := (hmem _ _).mp (Table.mem_of_get? hvalue)
          exact hmember.1 ((Json.mem_keys_insertMember hlacked default).mpr (Or.inl rfl))
        refine ⟨(field.name, default) :: gained, ?_, List.nodup_cons.mpr ⟨hfresh, honce⟩, ?_⟩
        · calc rest.foldl _ (Json.insertMember field.name default members)
              |>.Perm (Json.insertMember field.name default members ++ gained) := hperm
            _ |>.Perm ((field.name, default) :: members ++ gained) :=
              (Json.insertMember_perm hlacked default).append_right gained
            _ |>.Perm (members ++ (field.name, default) :: gained) := List.perm_middle.symm
        · intro name value
          rw [List.mem_cons, hmem, Json.mem_keys_insertMember hlacked, defaultNamed?_cons, hdefault]
          by_cases he : field.name = name
          · subst he
            simp [hlacked, eq_comm]
          · simp [he, Ne.symm he]
    next hnone =>
      obtain ⟨gained, hperm, honce, hmem⟩ := ih members
      refine ⟨gained, hperm, honce, fun name value => ?_⟩
      rw [hmem, defaultNamed?_cons, hnone, ite_self, Option.none_or]

variable {inputs : Table InputType}

/-- Whether filling goes into a value at a type. -/
def Opens (inputs : Table InputType) (type : Signature) : Json → Prop
  | .arr _ => ∃ item, type.bare = .list item
  | .obj _ => ∃ name input, type.bare = .named name ∧ Table.get? inputs name = some input
  | _ => False

def filledMember (inputs : Table InputType) (declared : List ModelArgument)
    (member : String × Json) : String × Json :=
  (member.1, match fieldNamed? declared member.1 with
    | some field => fillOmitted inputs field.type member.2
    | none => member.2)

theorem fillItems_eq (type : Signature) (items : List Json) :
    fillItems inputs type items = items.map (fillOmitted inputs type) :=
  eq_map_of_cons (by rw [fillItems]) (fun _ _ => by rw [fillItems]) items

theorem fillMembers_eq (declared : List ModelArgument) (members : List (String × Json)) :
    fillMembers inputs declared members = members.map (filledMember inputs declared) :=
  eq_map_of_cons (by rw [fillMembers]) (fun _ _ => by rw [fillMembers]; rfl) members

theorem keys_filledMember (inputs : Table InputType) (declared : List ModelArgument)
    (members : List (String × Json)) :
    Table.keys (members.map (filledMember inputs declared)) = Table.keys members := by
  rw [Table.keys, List.map_map]
  rfl

theorem fillOmitted_items {type item : Signature} (h : type.bare = .list item)
    (items : List Json) :
    fillOmitted inputs type (.arr items) = .arr (items.map (fillOmitted inputs item)) := by
  rw [fillOmitted, h, ← fillItems_eq]

theorem fillOmitted_members {type : Signature} {name : String} (h : type.bare = .named name)
    {input : InputType} (hinput : Table.get? inputs name = some input)
    (members : List (String × Json)) :
    fillOmitted inputs type (.obj members) =
      .obj (addOmitted input.fields (members.map (filledMember inputs input.fields))) := by
  rw [fillOmitted, h]
  dsimp only
  rw [hinput, ← fillMembers_eq]

theorem fillOmitted_of_not_opens {type : Signature} {value : Json}
    (h : ¬ Opens inputs type value) : fillOmitted inputs type value = value := by
  cases value with
  | arr items =>
    rw [fillOmitted]
    split
    next item hitem => exact absurd ⟨item, hitem⟩ h
    next => rfl
  | obj members =>
    rw [fillOmitted]
    split
    next name hname =>
      split
      next input hinput => exact absurd ⟨name, input, hname, hinput⟩ h
      next => rfl
    next => rfl
  | _ => rw [fillOmitted] <;> nofun

/-- Induction over a value in step with its type, for as far as filling goes into it. -/
@[elab_as_elim]
theorem opened_induction (inputs : Table InputType) {motive : Signature → Json → Prop}
    (closed : ∀ type value, ¬ Opens inputs type value → motive type value)
    (items : ∀ type item items, type.bare = .list item →
      (∀ entry ∈ items, motive item entry) → motive type (.arr items))
    (members : ∀ type name input members, type.bare = .named name →
      Table.get? inputs name = some input →
      (∀ member ∈ members, ∀ field, fieldNamed? input.fields member.1 = some field →
        motive field.type member.2) → motive type (.obj members))
    (type : Signature) (value : Json) : motive type value := by
  induction value using Json.nested_induction generalizing type with
  | leaf value hitems hmembers =>
    refine closed type value fun hopens => ?_
    cases value with
    | arr => cases hitems
    | obj => cases hmembers
    | _ => exact hopens
  | arr entries ih =>
    by_cases hopens : Opens inputs type (.arr entries)
    · obtain ⟨item, hitem⟩ := hopens
      exact items type item entries hitem fun entry hentry => ih entry hentry item
    · exact closed type _ hopens
  | obj entries ih =>
    by_cases hopens : Opens inputs type (.obj entries)
    · obtain ⟨name, input, hname, hinput⟩ := hopens
      exact members type name input entries hname hinput
        fun member hmember field _ => ih member hmember field.type
    · exact closed type _ hopens

end GraphQL

end Schemata
