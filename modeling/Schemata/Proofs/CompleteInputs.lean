import Schemata.Proofs.FilledInputs
import Schemata.Proofs.Analysis

namespace Schemata

namespace GraphQL

/-- A place within a value at a type: the type that is asked for there and the value found. -/
inductive Place (inputs : Table InputType) : Signature → Json → Signature → Json → Prop
  | here {type : Signature} {value : Json} : Place inputs type value type value
  | item {type item place : Signature} {items : List Json} {entry value : Json}
      (type_eq : type.bare = .list item) (mem : entry ∈ items)
      (within : Place inputs item entry place value) :
      Place inputs type (.arr items) place value
  | member {type place : Signature} {name : String} {input : InputType}
      {members : List (String × Json)} {member : String × Json} {field : ModelArgument}
      {value : Json} (type_eq : type.bare = .named name)
      (input_eq : Table.get? inputs name = some input) (mem : member ∈ members)
      (field_eq : fieldNamed? input.fields member.1 = some field)
      (within : Place inputs field.type member.2 place value) :
      Place inputs type (.obj members) place value

def HasDefaults (inputs : Table InputType) (type : Signature) (value : Json) : Prop :=
  ∀ name input members, value = .obj members → type.bare = .named name →
    Table.get? inputs name = some input →
    ∀ field ∈ input.fields, field.default ≠ none → field.name ∈ Table.keys members

/-- No place of a value lacks a declared default. -/
def Complete (inputs : Table InputType) (type : Signature) (value : Json) : Prop :=
  ∀ place found, Place inputs type value place found → HasDefaults inputs place found

/-- A default that filling in adds to an object, at the type of its field. -/
def Adds (inputs : Table InputType) (type : Signature) (value : Json) (field : ModelArgument)
    (default : Json) : Prop :=
  ∃ name input members, value = .obj members ∧ type.bare = .named name ∧
    Table.get? inputs name = some input ∧
    ∃ key, key ∉ Table.keys members ∧ fieldNamed? input.fields key = some field ∧
      defaultNamed? input.fields key = some default

/-- The defaults added at all places of a value leave no default out themselves. -/
def AddsComplete (inputs : Table InputType) (type : Signature) (value : Json) : Prop :=
  ∀ place found, Place inputs type value place found → ∀ field default,
    Adds inputs place found field default → Complete inputs field.type default

variable {inputs : Table InputType}

section

variable {motive : Signature → Json → Prop}

theorem forall_place_of_not_opens {type : Signature} {value : Json}
    (h : ¬ Opens inputs type value) :
    (∀ place found, Place inputs type value place found → motive place found) ↔
      motive type value := by
  refine ⟨fun hall => hall type value .here, fun hhere place found hplace => ?_⟩
  cases hplace with
  | here => exact hhere
  | item type_eq => exact absurd ⟨_, type_eq⟩ h
  | member type_eq input_eq => exact absurd ⟨_, _, type_eq, input_eq⟩ h

theorem forall_place_items {type item : Signature} (htype : type.bare = .list item)
    (items : List Json) :
    (∀ place found, Place inputs type (.arr items) place found → motive place found) ↔
      motive type (.arr items) ∧ ∀ entry ∈ items, ∀ place found,
        Place inputs item entry place found → motive place found := by
  constructor
  · intro hall
    exact ⟨hall type _ .here, fun entry hentry place found hplace =>
      hall place found (.item htype hentry hplace)⟩
  · rintro ⟨hhere, hentries⟩ place found hplace
    cases hplace with
    | here => exact hhere
    | item type_eq mem within =>
      obtain rfl := Signature.list.inj (htype.symm.trans type_eq)
      exact hentries _ mem _ _ within

theorem forall_place_members {type : Signature} {name : String} (htype : type.bare = .named name)
    {input : InputType} (hinput : Table.get? inputs name = some input)
    (members : List (String × Json)) :
    (∀ place found, Place inputs type (.obj members) place found → motive place found) ↔
      motive type (.obj members) ∧
        ∀ member ∈ members, ∀ field, fieldNamed? input.fields member.1 = some field →
          ∀ place found, Place inputs field.type member.2 place found → motive place found := by
  constructor
  · intro hall
    exact ⟨hall type _ .here, fun member hmember field hfield place found hplace =>
      hall place found (.member htype hinput hmember hfield hplace)⟩
  · rintro ⟨hhere, hmembers⟩ place found hplace
    cases hplace with
    | here => exact hhere
    | member type_eq input_eq mem field_eq within =>
      obtain rfl := Signature.named.inj (htype.symm.trans type_eq)
      obtain rfl := Option.some.inj (hinput.symm.trans input_eq)
      exact hmembers _ mem _ field_eq _ _ within

end

theorem hasDefaults_of_not_opens {type : Signature} {value : Json}
    (h : ¬ Opens inputs type value) : HasDefaults inputs type value := by
  rintro name input members rfl hname hinput
  exact absurd ⟨name, input, hname, hinput⟩ h

theorem hasDefaults_members {type : Signature} {name : String} (htype : type.bare = .named name)
    {input : InputType} (hinput : Table.get? inputs name = some input)
    (members : List (String × Json)) :
    HasDefaults inputs type (.obj members) ↔
      ∀ key default, defaultNamed? input.fields key = some default →
        key ∈ Table.keys members := by
  constructor
  · intro h key default hdefault
    obtain ⟨field, hfield, hfound⟩ := List.exists_of_findSome?_eq_some hdefault
    split at hfound
    next hname =>
      subst hname
      refine h name input members rfl htype hinput field hfield ?_
      rw [hfound]
      exact Option.some_ne_none _
    next => cases hfound
  · intro h name' input' members' hmembers htype' hinput' field hfield hdefault
    obtain rfl := Json.obj.inj hmembers
    obtain rfl := Signature.named.inj (htype.symm.trans htype')
    obtain rfl := Option.some.inj (hinput.symm.trans hinput')
    obtain ⟨default, hnamed⟩ := exists_defaultNamed? hfield hdefault
    exact h field.name default hnamed

theorem complete_of_not_opens {type : Signature} {value : Json}
    (h : ¬ Opens inputs type value) : Complete inputs type value :=
  (forall_place_of_not_opens h).mpr (hasDefaults_of_not_opens h)

theorem complete_items {type item : Signature} (htype : type.bare = .list item)
    (items : List Json) :
    Complete inputs type (.arr items) ↔ ∀ entry ∈ items, Complete inputs item entry :=
  (forall_place_items htype items).trans (and_iff_right nofun)

theorem complete_members {type : Signature} {name : String} (htype : type.bare = .named name)
    {input : InputType} (hinput : Table.get? inputs name = some input)
    (members : List (String × Json)) :
    Complete inputs type (.obj members) ↔
      (∀ key default, defaultNamed? input.fields key = some default → key ∈ Table.keys members) ∧
        ∀ member ∈ members, ∀ field, fieldNamed? input.fields member.1 = some field →
          Complete inputs field.type member.2 :=
  (forall_place_members htype hinput members).trans
    (and_congr_left' (hasDefaults_members htype hinput members))

theorem addsComplete_of_not_opens {type : Signature} {value : Json}
    (h : ¬ Opens inputs type value) : AddsComplete inputs type value := by
  refine (forall_place_of_not_opens h).mpr ?_
  rintro field default ⟨name, input, members, rfl, hname, hinput, -⟩
  exact absurd ⟨name, input, hname, hinput⟩ h

theorem addsComplete_items {type item : Signature} (htype : type.bare = .list item)
    (items : List Json) :
    AddsComplete inputs type (.arr items) ↔ ∀ entry ∈ items, AddsComplete inputs item entry := by
  refine (forall_place_items htype items).trans (and_iff_right ?_)
  rintro field default ⟨name, input, members, hvalue, -⟩
  cases hvalue

theorem addsComplete_members {type : Signature} {name : String} (htype : type.bare = .named name)
    {input : InputType} (hinput : Table.get? inputs name = some input)
    (members : List (String × Json)) :
    AddsComplete inputs type (.obj members) ↔
      (∀ key field default, key ∉ Table.keys members → fieldNamed? input.fields key = some field →
        defaultNamed? input.fields key = some default → Complete inputs field.type default) ∧
        ∀ member ∈ members, ∀ field, fieldNamed? input.fields member.1 = some field →
          AddsComplete inputs field.type member.2 := by
  refine (forall_place_members htype hinput members).trans (and_congr_left' ?_)
  constructor
  · intro h key field default hkey hfield hdefault
    exact h field default ⟨name, input, members, rfl, htype, hinput, key, hkey, hfield, hdefault⟩
  · rintro h field default ⟨name', input', members', hmembers, htype', hinput', key, hkey, hfield,
      hdefault⟩
    obtain rfl := Json.obj.inj hmembers
    obtain rfl := Signature.named.inj (htype.symm.trans htype')
    obtain rfl := Option.some.inj (hinput.symm.trans hinput')
    exact h key field default hkey hfield hdefault

theorem addOmitted_eq_self {declared : List ModelArgument} {members : List (String × Json)}
    (h : ∀ key default, defaultNamed? declared key = some default → key ∈ Table.keys members) :
    addOmitted declared members = members := by
  induction declared with
  | nil => rfl
  | cons field rest ih =>
    have hrest : addOmitted rest members = members := by
      refine ih fun key default hdefault => ?_
      cases hfirst : (if field.name = key then field.default else none) with
      | none => exact h key default (by rw [defaultNamed?_cons, hfirst, Option.none_or, hdefault])
      | some first => exact h key first (by rw [defaultNamed?_cons, hfirst, Option.some_or])
    rw [addOmitted, List.foldl_cons]
    split
    next default hdefault =>
      have hthere : field.name ∈ Table.keys members :=
        h field.name default (by rw [defaultNamed?_cons, if_pos rfl, hdefault, Option.some_or])
      rw [if_pos (Table.contains_iff.mpr hthere)]
      exact hrest
    next => exact hrest

/-- An object that does not grow lacks no default. -/
theorem mem_keys_of_length {declared : List ModelArgument} {members : List (String × Json)}
    (h : (addOmitted declared members).length = members.length) {key : String} {default : Json}
    (hdefault : defaultNamed? declared key = some default) : key ∈ Table.keys members := by
  obtain ⟨gained, hperm, -, hmem⟩ := exists_gained declared members
  have hlength := hperm.length_eq
  rw [h, List.length_append] at hlength
  have hnothing : gained = [] := List.eq_nil_of_length_eq_zero (by omega)
  by_contra hkey
  have hgained := (hmem key default).mpr ⟨hkey, hdefault⟩
  rw [hnothing] at hgained
  cases hgained

theorem filledMember_eq_self_iff {declared : List ModelArgument} {member : String × Json} :
    filledMember inputs declared member = member ↔
      ∀ field, fieldNamed? declared member.1 = some field →
        fillOmitted inputs field.type member.2 = member.2 := by
  rw [filledMember, Prod.ext_iff, and_iff_right rfl]
  dsimp only
  cases fieldNamed? declared member.1 with
  | none => exact iff_of_true rfl nofun
  | some field => simp

theorem addOmitted_filled_eq_self_iff {declared : List ModelArgument}
    {members : List (String × Json)} :
    addOmitted declared (members.map (filledMember inputs declared)) = members ↔
      (∀ key default, defaultNamed? declared key = some default → key ∈ Table.keys members) ∧
        ∀ member ∈ members, filledMember inputs declared member = member := by
  have hkeys := keys_filledMember inputs declared members
  constructor
  · intro h
    have hlength : (addOmitted declared (members.map (filledMember inputs declared))).length =
        (members.map (filledMember inputs declared)).length := by rw [h, List.length_map]
    have hdefaults (key : String) (default : Json)
        (hdefault : defaultNamed? declared key = some default) : key ∈ Table.keys members :=
      hkeys ▸ mem_keys_of_length hlength hdefault
    refine ⟨hdefaults, List.map_inj_left.mp ?_⟩
    rw [addOmitted_eq_self (hkeys.symm ▸ hdefaults)] at h
    exact h.trans (List.map_id' members).symm
  · rintro ⟨hdefaults, hmembers⟩
    have hsame : members.map (filledMember inputs declared) = members :=
      (List.map_congr_left hmembers).trans (List.map_id' members)
    rw [hsame]
    exact addOmitted_eq_self hdefaults

theorem fillOmitted_eq_self_iff (type : Signature) (value : Json) :
    fillOmitted inputs type value = value ↔ Complete inputs type value := by
  induction type, value using opened_induction inputs with
  | closed type value hclosed =>
    exact iff_of_true (fillOmitted_of_not_opens hclosed) (complete_of_not_opens hclosed)
  | items type item items htype ih =>
    rw [fillOmitted_items htype, complete_items htype, Json.arr.injEq]
    calc items.map (fillOmitted inputs item) = items
        ↔ items.map (fillOmitted inputs item) = items.map fun entry => entry := by
          rw [List.map_id']
      _ ↔ ∀ entry ∈ items, fillOmitted inputs item entry = entry := List.map_inj_left
      _ ↔ ∀ entry ∈ items, Complete inputs item entry := forall₂_congr ih
  | members type name input members htype hinput ih =>
    rw [fillOmitted_members htype hinput, complete_members htype hinput, Json.obj.injEq,
      addOmitted_filled_eq_self_iff]
    refine and_congr_right' (forall₂_congr fun member hmember => ?_)
    rw [filledMember_eq_self_iff]
    exact forall₂_congr (ih member hmember)

theorem complete_fillOmitted_iff (type : Signature) (value : Json) :
    Complete inputs type (fillOmitted inputs type value) ↔ AddsComplete inputs type value := by
  induction type, value using opened_induction inputs with
  | closed type value hclosed =>
    rw [fillOmitted_of_not_opens hclosed]
    exact iff_of_true (complete_of_not_opens hclosed) (addsComplete_of_not_opens hclosed)
  | items type item items htype ih =>
    rw [fillOmitted_items htype, complete_items htype, addsComplete_items htype,
      List.forall_mem_map]
    exact forall₂_congr ih
  | members type name input members htype hinput ih =>
    rw [fillOmitted_members htype hinput, complete_members htype hinput,
      addsComplete_members htype hinput]
    have hkeys := keys_filledMember inputs input.fields members
    obtain ⟨gained, hperm, -, hgained⟩ :=
      exists_gained input.fields (members.map (filledMember inputs input.fields))
    rw [hkeys] at hgained
    have hdefaults : ∀ key default, defaultNamed? input.fields key = some default →
        key ∈ Table.keys
          (addOmitted input.fields (members.map (filledMember inputs input.fields))) := by
      intro key default hdefault
      have hnames := hperm.map Prod.fst
      rw [Table.keys, hnames.mem_iff, List.map_append, List.mem_append]
      by_cases hkey : key ∈ Table.keys members
      · rw [← hkeys] at hkey
        exact Or.inl hkey
      · exact Or.inr (Table.mem_keys_of_mem ((hgained key default).mpr ⟨hkey, hdefault⟩))
    have hgiven (member : String × Json) (hmember : member ∈ members) :
        (∀ field, fieldNamed? input.fields member.1 = some field →
          Complete inputs field.type (filledMember inputs input.fields member).2) ↔
        ∀ field, fieldNamed? input.fields member.1 = some field →
          AddsComplete inputs field.type member.2 := by
      refine forall₂_congr fun field hfield => ?_
      rw [filledMember, hfield]
      exact ih member hmember field hfield
    rw [and_iff_right hdefaults]
    simp only [hperm.mem_iff, List.forall_mem_append, List.forall_mem_map]
    rw [and_comm]
    refine and_congr ?_ (forall₂_congr hgiven)
    constructor
    · intro h key field default hkey hfield hdefault
      exact h (key, default) ((hgained key default).mpr ⟨hkey, hdefault⟩) field hfield
    · rintro h ⟨key, default⟩ hmember field hfield
      obtain ⟨hkey, hdefault⟩ := (hgained key default).mp hmember
      exact h key field default hkey hfield hdefault

/-- A filled value lacks no declared default, and stays as it is when it is filled again, just where
no default that has been added to it lacks one. The defaults are added as they are declared. -/
theorem fillOmitted_completes (inputs : Table InputType) (type : Signature) (value : Json) :
    (Complete inputs type (fillOmitted inputs type value) ↔ AddsComplete inputs type value) ∧
    (fillOmitted inputs type (fillOmitted inputs type value) = fillOmitted inputs type value ↔
      AddsComplete inputs type value) :=
  ⟨complete_fillOmitted_iff type value,
    (fillOmitted_eq_self_iff type _).trans (complete_fillOmitted_iff type value)⟩

end GraphQL

def Registry.search : Registry :=
  let number : TypeExpr := .named (.literal "Int")
  { types :=
      [{ TypeDeclaration.new .input "Range" with
          fields := [{ FieldDeclaration.new "from" number with default := some (.int 0) }] },
        { TypeDeclaration.new .input "Filter" with
          fields := [{ FieldDeclaration.new "range" (.named (.literal "Range")) with
            default := some (.obj []) }] }]
    resolvers := [(.literal "Store", ⟨.query, (FieldDeclaration.new "find" number).addSource
      (.single (.new "filter" (.named (.literal "Filter"))))⟩)] }

open GraphQL in
theorem analyze_incomplete_search :
    ∃ model, analyze {} Registry.search [.literal "Store"] = .ok model ∧
      fillOmitted model.inputs (.named "Filter") (.obj []) = .obj [("range", .obj [])] ∧
      ¬ Complete model.inputs (.named "Filter")
        (fillOmitted model.inputs (.named "Filter") (.obj [])) ∧
      fillOmitted model.inputs (.named "Filter")
        (fillOmitted model.inputs (.named "Filter") (.obj [])) =
          .obj [("range", .obj [("from", .int 0)])] := by
  have hrun : (analyze {} Registry.search [.literal "Store"]).toOption.any (fun model =>
      decide (fillOmitted model.inputs (.named "Filter") (.obj []) = .obj [("range", .obj [])] ∧
        fillOmitted model.inputs (.named "Filter") (.obj [("range", .obj [])]) =
          .obj [("range", .obj [("from", .int 0)])])) = true := by
    decide +kernel
  obtain ⟨model, hmodel, hrun⟩ := exists_ok_of_any hrun
  obtain ⟨hfilled, hagain⟩ := of_decide_eq_true hrun
  refine ⟨model, hmodel, hfilled, ?_, ?_⟩
  · rw [hfilled, ← fillOmitted_eq_self_iff, hagain]
    decide
  · rw [hfilled, hagain]

end Schemata
