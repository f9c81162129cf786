import Schemata.GraphQL.Sdl
import Schemata.GraphQL.Shaped
import Schemata.GraphQL.Validity
import Schemata.Proofs.Analysis

namespace Schemata

namespace GraphQL

/-- The constants of a type where `spelling` is how enum values are written. A single item may stand
for a list, and a field of an input may be left out if it has a default or is nullable. -/
inductive IsConstant (types : TypeSystem) (spelling : String → Value) : Signature → Value → Prop
  | null (name : String) : IsConstant types spelling (.named name) .null
  | nullList (item : Signature) : IsConstant types spelling (.list item) .null
  | nonNull {inner : Signature} {value : Value} (present : value ≠ .null)
      (within : IsConstant types spelling inner value) :
      IsConstant types spelling (.nonNull inner) value
  | list {item : Signature} {items : List Value}
      (each : ∀ entry ∈ items, IsConstant types spelling item entry) :
      IsConstant types spelling (.list item) (.list items)
  | single {item : Signature} {value : Value} (present : value ≠ .null)
      (alone : ∀ items, value ≠ .list items) (within : IsConstant types spelling item value) :
      IsConstant types spelling (.list item) value
  | builtin {name : String} {value : Value} (listed : isBuiltinScalar name = true)
      (undeclared : types.kindOf name = none) (fits : Validity.fitsBuiltin name value = true) :
      IsConstant types spelling (.named name) value
  | scalar {name : String} (kind : types.kindOf name = some .scalar) (value : Value) :
      IsConstant types spelling (.named name) value
  | enum {name item : String} {enum : EnumType} {value : Value}
      (kind : types.kindOf name = some .enum) (found : Table.get? types.enums name = some enum)
      (listed : item ∈ enum.values) (spelled : value = spelling item) :
      IsConstant types spelling (.named name) value
  | input {name : String} {input : InputType} {fields : List (String × Value)}
      (kind : types.kindOf name = some .input) (found : Table.get? types.inputs name = some input)
      (declared : Table.keys fields ⊆ input.fields.map ModelArgument.name)
      (complete : ∀ field ∈ input.fields, field.type.isNonNull = true → field.default = none →
        field.name ∈ Table.keys fields)
      (each : ∀ member ∈ fields, ∀ field ∈ input.fields, field.name = member.1 →
        IsConstant types spelling field.type member.2) :
      IsConstant types spelling (.named name) (.object fields)

/-- `part` stands in a constant where its type asks for the type `place`, in whichever lists and
fields of inputs. -/
inductive Stands (types : TypeSystem) (place : String) (part : Value) : Signature → Value → Prop
  | here : Stands types place part (.named place) part
  | nonNull {inner : Signature} {value : Value} (within : Stands types place part inner value) :
      Stands types place part (.nonNull inner) value
  | item {item : Signature} {items : List Value} {entry : Value} (mem : entry ∈ items)
      (within : Stands types place part item entry) :
      Stands types place part (.list item) (.list items)
  | single {item : Signature} {value : Value} (present : value ≠ .null)
      (alone : ∀ items, value ≠ .list items) (within : Stands types place part item value) :
      Stands types place part (.list item) value
  | member {name : String} {input : InputType} {fields : List (String × Value)}
      {member : String × Value} {field : ModelArgument} (kind : types.kindOf name = some .input)
      (found : Table.get? types.inputs name = some input) (mem : member ∈ fields)
      (declared : field ∈ input.fields) (named : field.name = member.1)
      (within : Stands types place part field.type member.2) :
      Stands types place part (.named name) (.object fields)

variable {types : TypeSystem} {type : Signature} {value : Value}

/-- In a constant only a null or a listed enum value stands where an enum is asked for. -/
theorem IsConstant.enum_spelled {spelling : String → Value}
    (h : IsConstant types spelling type value) {place : String} {part : Value}
    (hplace : types.kindOf place = some .enum) (hstands : Stands types place part type value) :
    part = .null ∨ ∃ enum, Table.get? types.enums place = some enum ∧
      ∃ item ∈ enum.values, part = spelling item := by
  -- Each form of a constant leaves one way down; the kind of the name excludes the others.
  induction h with
  | null name =>
    cases hstands
    exact Or.inl rfl
  | nullList item =>
    cases hstands with
    | single present => exact absurd rfl present
  | nonNull _ _ ih =>
    cases hstands with
    | nonNull within => exact ih within
  | list _ ih =>
    cases hstands with
    | item mem within => exact ih _ mem within
    | single _ alone => exact absurd rfl (alone _)
  | single _ alone _ ih =>
    cases hstands with
    | item => exact absurd rfl (alone _)
    | single _ _ within => exact ih within
  | builtin _ undeclared =>
    cases hstands with
    | here => simp [hplace] at undeclared
    | member kind => simp [kind] at undeclared
  | scalar kind =>
    cases hstands with
    | here => simp [hplace] at kind
    | member other => simp [other] at kind
  | enum kind found listed spelled =>
    cases hstands with
    | here => exact Or.inr ⟨_, found, _, listed, spelled⟩
    | member other => simp [other] at kind
  | input kind found _ _ _ ih =>
    cases hstands with
    | here => simp [hplace] at kind
    | member _ other mem declared named within =>
      obtain rfl := Option.some.inj (found.symm.trans other)
      exact ih _ mem _ declared named within

/-- Without a single enum value it makes no difference how they are spelled. -/
theorem IsConstant.of_no_enum {spelling : String → Value} (h : IsConstant types spelling type value)
    (hspelling : ∀ item, spelling item ≠ .null) (another : String → Value)
    (hnone : ∀ place part, types.kindOf place = some .enum → Stands types place part type value →
      part = .null) : IsConstant types another type value := by
  induction h with
  | null name => exact .null name
  | nullList item => exact .nullList item
  | nonNull present _ ih =>
    exact .nonNull present (ih fun place part hplace hstands =>
      hnone place part hplace (.nonNull hstands))
  | list _ ih =>
    exact .list fun entry hentry => ih entry hentry fun place part hplace hstands =>
      hnone place part hplace (.item hentry hstands)
  | single present alone _ ih =>
    exact .single present alone (ih fun place part hplace hstands =>
      hnone place part hplace (.single present alone hstands))
  | builtin listed undeclared fits => exact .builtin listed undeclared fits
  | scalar kind value => exact .scalar kind value
  | enum kind _ _ spelled => exact absurd (spelled ▸ hnone _ _ kind .here) (hspelling _)
  | input kind found declared complete _ ih =>
    exact .input kind found declared complete fun member hmember field hfield hname =>
      ih member hmember field hfield hname fun place part hplace hstands =>
        hnone place part hplace (.member kind found hmember hfield hname hstands)

/-- A default fits its type if it is a constant of the type with enum values given as strings. -/
def DefaultFits (types : TypeSystem) (type : Signature) (default : Json) : Prop :=
  IsConstant types .string type (.ofJson default)

/-- A literal of a type has its enum values as such. -/
def IsLiteral (types : TypeSystem) (type : Signature) (value : Value) : Prop :=
  IsConstant types .enum type value

/-- A default that fits its type is emitted as a literal of the type if and only if it has null
wherever an enum is asked for. Anything else that stands there is emitted as a string. -/
theorem emitted_isLiteral_iff {argument : ModelArgument} {default : Json}
    (hdefault : argument.default = some default)
    (hfits : DefaultFits types argument.type default) :
    ∃ emitted, (InputDef.ofArgument argument).default = some emitted ∧
      (IsLiteral types argument.type emitted ↔
        ∀ place part, types.kindOf place = some .enum →
          Stands types place part argument.type emitted → part = .null) ∧
      ∀ place part, types.kindOf place = some .enum →
        Stands types place part argument.type emitted → part = .null ∨
          ∃ enum, Table.get? types.enums place = some enum ∧
            ∃ item ∈ enum.values, part = .string item := by
  refine ⟨.ofJson default, by rw [InputDef.ofArgument, hdefault, Option.map_some], ⟨?_, ?_⟩, ?_⟩
  · intro hliteral place part hplace hstands
    rcases hfits.enum_spelled hplace hstands with hnull | ⟨_, -, item, -, hstring⟩
    · exact hnull
    · rcases hliteral.enum_spelled hplace hstands with hnull | ⟨_, -, other, -, henum⟩
      · exact hnull
      · rw [hstring] at henum
        cases henum
  · exact hfits.of_no_enum nofun .enum
  · exact fun place part hplace hstands => hfits.enum_spelled hplace hstands

end GraphQL

def Registry.palette : Registry :=
  let color : FieldDeclaration := { FieldDeclaration.new "color" (.named (.literal "Color")) with
    default := some (.str "RED") }
  let paints : FieldDeclaration :=
    { FieldDeclaration.new "paints" (.list (.nonNull (.named (.literal "Paint")))) with
      default := some (.arr [.obj [("color", .str "BLUE")], .obj []]) }
  { types :=
      [{ TypeDeclaration.new .input "Paint" with
          fields := [.new "color" (.named (.literal "Color"))] }]
    enums := [⟨"Color", ["RED", "BLUE"], none⟩]
    resolvers := [(.literal "Store", ⟨.query, ((FieldDeclaration.new "mix" (.named
      (.literal "Color"))).addSource (.single color)).addSource (.single paints)⟩)] }

open GraphQL

/-- The blue paint in the list is emitted with a string for its colour. -/
theorem emitted_isLiteral_iff_palette :
    ∃ model field argument emitted, analyze {} Registry.palette [.literal "Store"] = .ok model ∧
      field ∈ model.query.fields ∧ argument ∈ field.arguments ∧ argument.name = "paints" ∧
      (InputDef.ofArgument argument).default = some emitted ∧
      Stands model.toTypeSystem "Color" (.string "BLUE") argument.type emitted ∧
      ¬IsLiteral model.toTypeSystem argument.type emitted := by
  let paints : ModelArgument := ⟨"paints", .list (.nonNull (.named "Paint")), none,
    some (.arr [.obj [("color", .str "BLUE")], .obj []])⟩
  let paint : InputType := ⟨none, [⟨"color", .named "Color", none, none⟩]⟩
  have hrun : (analyze {} Registry.palette [.literal "Store"]).toOption.any (fun model =>
      decide (model.kindOf "Color" = some .enum ∧ model.kindOf "Paint" = some .input ∧
        Table.get? model.enums "Color" = some ⟨none, ["RED", "BLUE"]⟩ ∧
        Table.get? model.inputs "Paint" = some paint) &&
      model.query.fields.any fun field => decide (paints ∈ field.arguments)) = true := by
    decide +kernel
  obtain ⟨model, hmodel, hrun⟩ := exists_ok_of_any hrun
  rw [Bool.and_eq_true, decide_eq_true_eq, List.any_eq_true] at hrun
  obtain ⟨⟨hcolor, hpaint, hcolors, hpaints⟩, field, hfield, hargument⟩ := hrun
  have hblue : IsConstant model.toTypeSystem .string (.named "Color") (.string "BLUE") :=
    .enum hcolor hcolors (by simp) rfl
  have hfits : DefaultFits model.toTypeSystem paints.type
      (.arr [.obj [("color", .str "BLUE")], .obj []]) := by
    refine .list (List.forall_mem_cons.mpr ⟨?_, List.forall_mem_singleton.mpr ?_⟩)
    · refine .nonNull (by simp [Value.ofJson]) (.input hpaint hpaints ?_ ?_ ?_)
      · simp [paint, Table.keys, Value.ofMembers]
      · simp [paint, Signature.isNonNull]
      · simpa [paint, Value.ofMembers, Value.ofJson] using hblue
    · refine .nonNull (by simp [Value.ofJson]) (.input hpaint hpaints ?_ ?_ ?_)
      · simp [Table.keys, Value.ofMembers]
      · simp [paint, Signature.isNonNull]
      · simp [Value.ofMembers]
  obtain ⟨emitted, hemitted, hliteral, -⟩ := @emitted_isLiteral_iff _ paints _ rfl hfits
  have hstands : Stands model.toTypeSystem "Color" (.string "BLUE") paints.type emitted := by
    obtain rfl := Option.some.inj hemitted
    exact .item List.mem_cons_self (.nonNull (.member hpaint hpaints List.mem_cons_self
      List.mem_cons_self rfl .here))
  refine ⟨model, field, paints, emitted, hmodel, hfield, of_decide_eq_true hargument, rfl,
    hemitted, hstands, fun h => ?_⟩
  cases hliteral.mp h _ _ hcolor hstands

/-- `RED` is a default of its enum, but the schema document shows a string, which is no literal of
the enum. The same string becomes the enum value where a field returns it. -/
theorem emitted_palette_not_literal :
    ∃ model field argument, analyze {} Registry.palette [.literal "Store"] = .ok model ∧
      field ∈ model.query.fields ∧ argument ∈ field.arguments ∧
      argument.default = some (.str "RED") ∧
      DefaultFits model.toTypeSystem argument.type (.str "RED") ∧
      (InputDef.ofArgument argument).default = some (.string "RED") ∧
      ¬IsLiteral model.toTypeSystem argument.type (.string "RED") ∧
      Sdl.input (.ofArgument argument) = "color: Color = \"RED\"" ∧
      (Shaping.ofTypes model.toTypeSystem).shapeScalar (.str "RED") "Color" =
        .plain (.enum "RED") := by
  let color : ModelArgument := ⟨"color", .named "Color", none, some (.str "RED")⟩
  have hrun : (analyze {} Registry.palette [.literal "Store"]).toOption.any (fun model =>
      decide (model.kindOf "Color" = some .enum ∧
        Table.get? model.enums "Color" = some ⟨none, ["RED", "BLUE"]⟩) &&
      model.query.fields.any fun field => decide (color ∈ field.arguments)) = true := by
    decide +kernel
  obtain ⟨model, hmodel, hrun⟩ := exists_ok_of_any hrun
  rw [Bool.and_eq_true, decide_eq_true_eq, List.any_eq_true] at hrun
  obtain ⟨⟨hcolor, hcolors⟩, field, hfield, hargument⟩ := hrun
  have hfits : DefaultFits model.toTypeSystem color.type (.str "RED") :=
    .enum hcolor hcolors (by simp) rfl
  have hshaped : (Shaping.ofTypes model.toTypeSystem).types.kindOf "Color" = some .enum := hcolor
  refine ⟨model, field, color, hmodel, hfield, of_decide_eq_true hargument, rfl, hfits, rfl,
    fun hliteral => ?_, by decide +kernel, by simp only [Shaping.shapeScalar, hshaped]⟩
  rcases hliteral.enum_spelled hcolor .here with hnull | ⟨_, -, _, -, henum⟩
  · cases hnull
  · cases henum

end Schemata
