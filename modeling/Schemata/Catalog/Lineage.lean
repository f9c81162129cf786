import Schemata.Catalog.Basic

namespace Schemata

namespace Cycle

def least (first : String) (others : List String) : String :=
  others.foldl (fun least name => if name < least then name else least) first

def splitAtLeast : List String → List String × List String
  | [] => ([], [])
  | first :: others =>
    let least := least first others
    ((first :: others).dropWhile (· ≠ least), (first :: others).takeWhile (· ≠ least))

/-- The cycle from its smallest member on, closed by that member; it does not depend on where the
cycle was entered. -/
def normalize (members : List String) : List String :=
  let (rear, front) := splitAtLeast members
  rear ++ front ++ (rear ++ front).take 1

end Cycle

namespace Catalog

/-- Follows parent links from `current`, the last of `chain`. Each step adds a type that the chain
lacks, so as many steps as there are types are enough. -/
def climb (catalog : Catalog) : Nat → List String → String → TypeEntry → Except Problem (List String)
  | fuel, chain, current, entry =>
    match entry.parent with
    | none => .ok chain
    | some parent =>
      if parent ∈ chain then
        .error (.cyclicExtension (Cycle.normalize (chain.dropWhile (· ≠ parent))))
      else match catalog.get? parent with
        | none => .error (.undeclaredType parent (.extendsClause current))
        | some parentEntry =>
          if parentEntry.kind ≠ entry.kind then
            .error (.incompatibleExtension current entry.kind parent parentEntry.kind)
          else match fuel with
            | 0 => .ok chain
            | fuel + 1 => catalog.climb fuel (chain ++ [parent]) parent parentEntry

/-- The name followed by its ancestors, nearest first. -/
def lineage (catalog : Catalog) (name : String) : Except Problem (List String) :=
  match catalog.get? name with
  | none => .error (.undeclaredType name .lineage)
  | some entry => catalog.climb catalog.types.length [name] name entry

end Catalog

end Schemata
