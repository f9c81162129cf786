import Mathlib.Data.List.Induction
import Schemata.Proofs.SettledCatalog

namespace Schemata

theorem Element.eq_of_path {element other : Element} (h : element.path = other.path) :
    element = other := by
  cases element
  cases other
  exact congrArg Element.mk h

theorem TypeName.resolve_of_settled {names : ElementNames} {name : TypeName} {host : Element}
    (h : name.settled = .element host) : name.resolve names = names.nameOf host := by
  induction name with
  | literal text => cases h
  | element other =>
    obtain rfl := TypeName.element.inj h
    rfl
  | deferred cell thunk ih => exact ih h

namespace Registry

def madeFor (registry : Registry) (host : Element) : List TypeDeclaration :=
  registry.types.filter fun type => decide (type.element = some host)

/-- The name of the last type declared for an element, or the element's own identifier. -/
def nameOf (registry : Registry) (host : Element) : String :=
  ((registry.madeFor host).getLast?.map TypeDeclaration.name).getD host.ident

variable {registry : Registry} {host : Element}

theorem mem_madeFor {type : TypeDeclaration} :
    type ∈ registry.madeFor host ↔ type ∈ registry.types ∧ type.element = some host := by
  rw [madeFor, List.mem_filter, decide_eq_true_eq]

theorem get?_elementNames (registry : Registry) (host : Element) :
    Table.get? registry.elementNames host.path =
      (registry.madeFor host).getLast?.map TypeDeclaration.name := by
  rw [elementNames, madeFor]
  -- From the end of the list, for the last declaration overwrites what came before.
  induction registry.types using List.reverseRecOn with
  | nil => rfl
  | append_singleton types last ih =>
    rw [List.foldl_concat, List.filter_append, List.filter_singleton]
    by_cases hlast : last.element = some host
    · have hmade : decide (last.element = some host) = true := decide_eq_true hlast
      rw [hmade]
      simp only [hlast, ElementNames.insert, Table.get?_insert, if_pos, List.getLast?_concat,
        Option.map_some, cond_true]
    · have hother : decide (last.element = some host) = false := decide_eq_false hlast
      rw [hother, cond_false, List.append_nil, ← ih]
      cases helement : last.element with
      | none => rfl
      | some element =>
        have hne : element.path ≠ host.path := fun hpath =>
          hlast (helement.trans (congrArg some (Element.eq_of_path hpath)))
        exact (Table.get?_insert _ _ _ _).trans (if_neg hne)

theorem nameOf_elementNames (registry : Registry) (host : Element) :
    registry.elementNames.nameOf host = registry.nameOf host := by
  rw [ElementNames.nameOf, get?_elementNames, nameOf]

/-- A reference by an element means the same wherever in the registry it stands. -/
theorem resolve_elementNames {name : TypeName} (h : name.settled = .element host) :
    name.resolve registry.elementNames = registry.nameOf host := by
  rw [TypeName.resolve_of_settled h, nameOf_elementNames]

/-- An element for which a type is declared has the name of the last one. -/
theorem exists_nameOf {type : TypeDeclaration} (htype : type ∈ registry.types)
    (helement : type.element = some host) :
    ∃ last ∈ registry.types, last.element = some host ∧
      (registry.madeFor host).getLast? = some last ∧ registry.nameOf host = last.name := by
  have hmade : registry.madeFor host ≠ [] := List.ne_nil_of_mem (mem_madeFor.mpr ⟨htype, helement⟩)
  have hlast := List.getLast?_eq_some_getLast hmade
  obtain ⟨hmem, hhost⟩ := mem_madeFor.mp (List.getLast_mem hmade)
  exact ⟨_, hmem, hhost, hlast, by rw [nameOf, hlast, Option.map_some, Option.getD_some]⟩

end Registry

end Schemata
