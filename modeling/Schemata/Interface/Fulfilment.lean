import Schemata.Interface.Relation
import Schemata.Interface.Requirement

namespace Schemata

namespace Fulfilment

open Requirement

variable (catalog : Catalog)

structure Progress where
  relation : InterfaceRelation
  effective : Table FieldSet
  problems : List Problem

def recordInterface (progress : Progress) (interface : String) : Progress :=
  let implementers := Table.insert progress.relation.implementers interface []
  match catalog.lineage interface with
  | .ok chain =>
    { progress with relation := { progress.relation with
        implementers := implementers
        ancestors := Table.insert progress.relation.ancestors interface (chain.drop 1) } }
  | .error problem =>
    { progress with
      relation := { progress.relation with implementers := implementers }
      problems := progress.problems ++ [problem] }

def recordObject (relation : InterfaceRelation) (object : String) (interfaces : List String) :
    InterfaceRelation :=
  { relation with
    interfaces := Table.insert relation.interfaces object interfaces
    implementers := interfaces.foldl
      (fun implementers interface => Table.modify (· ++ [object]) implementers interface)
      relation.implementers }

/-- The sets that are read are those that the objects before have left. -/
def checkObject (inherit : Bool) (progress : Progress) (object : String) : Progress :=
  match catalog.interfacesOf object with
  | .error found => { progress with problems := found.foldl noteOnce progress.problems }
  | .ok interfaces =>
    let effective := progress.effective
    match Table.get? effective object with
    | none => progress
    | some own =>
      let supplied := if inherit then suppliedFields catalog effective interfaces own else []
      let found := violations catalog effective object interfaces own supplied
      { relation := recordObject progress.relation object interfaces
        effective :=
          if found.isEmpty then Table.insert effective object (completed own supplied)
          else effective
        problems := progress.problems ++ found }

def run (effective : Table FieldSet) (inherit : Bool) : Progress :=
  let start : Progress := ⟨{}, effective, []⟩
  let progress := (Table.keys (catalog.typesOfKind .interface)).foldl (recordInterface catalog) start
  (Table.keys (catalog.typesOfKind .object)).foldl (checkObject catalog inherit) progress

end Fulfilment

/-- The interface relation, and the field sets with those of conforming objects completed; the
latter also when some object does not conform. -/
def Catalog.validate (catalog : Catalog) (effective : Table FieldSet) (inherit : Bool) :
    Except GenerationError InterfaceRelation × Table FieldSet :=
  let progress := Fulfilment.run catalog effective inherit
  (unlessProblems progress.problems progress.relation, progress.effective)

end Schemata
