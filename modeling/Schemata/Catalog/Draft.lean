import Schemata.Catalog.Basic
import Schemata.Registration

namespace Schemata

structure CatalogDraft where
  catalog : Catalog := {}
  problems : List Problem := []
  deriving Inhabited

namespace CatalogDraft

def report (draft : CatalogDraft) (problem : Problem) : CatalogDraft :=
  { draft with problems := draft.problems ++ [problem] }

/-- Adds under a free name; a taken name is a duplicate. -/
def reserve (draft : CatalogDraft) (name : String) (add : CatalogDraft → CatalogDraft) : CatalogDraft :=
  if draft.catalog.isTaken name then draft.report (.duplicateType name) else add draft

def entryOf (names : ElementNames) (declaration : TypeDeclaration) : TypeEntry :=
  { kind := declaration.kind
    description := declaration.description
    parent := declaration.parent.map (·.resolve names)
    interfaces := declaration.interfaces.map (·.resolve names)
    fields := declaration.fields
    isTypeOf := declaration.isTypeOf
    resolveType := declaration.resolveType }

def misplacedInterfaces (name : String) (entry : TypeEntry) : List Problem :=
  if entry.kind = .object then []
  else entry.interfaces.map (.implementsOnNonObject name entry.kind)

def addType (draft : CatalogDraft) (declaration : TypeDeclaration) : CatalogDraft :=
  draft.reserve declaration.name fun draft =>
    let entry := entryOf draft.catalog.elements declaration
    { catalog := { draft.catalog with
        types := Table.insert draft.catalog.types declaration.name entry }
      problems := draft.problems ++ misplacedInterfaces declaration.name entry }

def addScalar (draft : CatalogDraft) (declaration : ScalarDeclaration) : CatalogDraft :=
  draft.reserve declaration.name fun draft =>
    { draft with catalog := { draft.catalog with
        scalars := Table.insert draft.catalog.scalars declaration.name declaration } }

def addEnum (draft : CatalogDraft) (declaration : EnumDeclaration) : CatalogDraft :=
  draft.reserve declaration.name fun draft =>
    { draft with catalog := { draft.catalog with
        enums := Table.insert draft.catalog.enums declaration.name declaration } }

def addUnion (draft : CatalogDraft) (declaration : UnionDeclaration) : CatalogDraft :=
  draft.reserve declaration.name fun draft =>
    let entry : UnionEntry :=
      { description := declaration.description
        members := declaration.members.map (·.resolve draft.catalog.elements)
        resolveType := declaration.resolveType }
    { draft with catalog := { draft.catalog with
        unions := Table.insert draft.catalog.unions declaration.name entry } }

def addField (draft : CatalogDraft) (late : TypeName × FieldDeclaration) : CatalogDraft :=
  let owner := late.1.resolve draft.catalog.elements
  match draft.catalog.get? owner with
  | some _ =>
    { draft with catalog := draft.catalog.modifyType owner fun entry =>
        { entry with fields := entry.fields ++ [late.2] } }
  | none => draft.report (.undeclaredType owner (.fieldOwner late.2.name))

/-- Naming the same parent again is no conflict. -/
def addExtension (draft : CatalogDraft) (edge : TypeName × TypeName) : CatalogDraft :=
  let type := edge.1.resolve draft.catalog.elements
  let parent := edge.2.resolve draft.catalog.elements
  match draft.catalog.get? type with
  | none => draft.report (.undeclaredType type (.extendsEdge parent))
  | some entry =>
    match entry.parent with
    | some existing =>
      if existing = parent then draft else draft.report (.conflictingParents type existing parent)
    | none =>
      { draft with catalog := draft.catalog.modifyType type fun entry =>
          { entry with parent := some parent } }

/-- An edge that is already there adds nothing. -/
def addImplementation (draft : CatalogDraft) (edge : TypeName × TypeName) : CatalogDraft :=
  let object := edge.1.resolve draft.catalog.elements
  let interface := edge.2.resolve draft.catalog.elements
  match draft.catalog.get? object with
  | none => draft.report (.undeclaredType object (.implementsEdge interface))
  | some entry =>
    if entry.kind ≠ .object then draft.report (.implementsOnNonObject object entry.kind interface)
    else if interface ∈ entry.interfaces then draft
    else
      { draft with catalog := draft.catalog.modifyType object fun entry =>
          { entry with interfaces := entry.interfaces ++ [interface] } }

def addResolver (draft : CatalogDraft) (resolver : TypeName × ResolverMethod) : CatalogDraft :=
  { draft with catalog := { draft.catalog with
      resolvers := draft.catalog.resolvers ++
        [⟨resolver.1.resolve draft.catalog.elements, resolver.2⟩] } }

end CatalogDraft

def Registry.elementNames (registry : Registry) : ElementNames :=
  registry.types.foldl
    (fun names declaration =>
      match declaration.element with
      | some element => names.insert element declaration.name
      | none => names)
    []

/-- All naming problems are found in one pass: types first, then the edges between them. -/
def CatalogDraft.ofRegistry (registry : Registry) : CatalogDraft :=
  let draft : CatalogDraft := { catalog := { elements := registry.elementNames } }
  let draft := registry.types.foldl addType draft
  let draft := registry.scalars.foldl addScalar draft
  let draft := registry.enums.foldl addEnum draft
  let draft := registry.unions.foldl addUnion draft
  let draft := registry.fields.foldl addField draft
  let draft := registry.extensions.foldl addExtension draft
  let draft := registry.implementations.foldl addImplementation draft
  registry.resolvers.foldl addResolver draft

def Catalog.ofRegistry (registry : Registry) : Except GenerationError Catalog :=
  let draft := CatalogDraft.ofRegistry registry
  unlessProblems draft.problems draft.catalog

end Schemata
