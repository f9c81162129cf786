import Schemata.Catalog.Lineage

namespace Schemata

structure InterfaceRelation where
  interfaces : Table (List String) := []
  implementers : Table (List String) := []
  ancestors : Table (List String) := []
  deriving Inhabited

def mergeNames (names added : List String) : List String :=
  added.foldl (fun names name => if name ∈ names then names else names ++ [name]) names

namespace Catalog

/-- What one interface in an implements clause stands for: itself and those it extends. -/
def implementedBy (catalog : Catalog) (type interface : String) : Except Problem (List String) :=
  match catalog.get? interface with
  | none => .error (.undeclaredType interface (.implementsClause type))
  | some entry =>
    if entry.kind ≠ .interface then .error (.notAnInterface type interface)
    else catalog.lineage interface

def implementsClauses (catalog : Catalog) (chain : List String) : List (String × String) :=
  chain.flatMap fun type =>
    match catalog.get? type with
    | some entry => entry.interfaces.map fun interface => (type, interface)
    | none => []

/-- Every interface an object conforms to, declared by itself or by an ancestor, or extended by
one of those, each once in the order of discovery. -/
def interfacesOf (catalog : Catalog) (object : String) : Except (List Problem) (List String) :=
  match catalog.lineage object with
  | .error problem => .error [problem]
  | .ok chain =>
    let found := (catalog.implementsClauses chain).map fun clause =>
      catalog.implementedBy clause.1 clause.2
    let problems := found.filterMap fun
      | .error problem => some problem
      | .ok _ => none
    if problems.isEmpty then
      .ok (found.foldl (fun derived names =>
        match names with
        | .ok names => mergeNames derived names
        | .error _ => derived) [])
    else .error problems

end Catalog

end Schemata
