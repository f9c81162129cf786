import Schemata.Json.Reader
import Schemata.Json.Text
import Schemata.LiveSchema
import Schemata.Proofs.Closure
import Schemata.Proofs.Conformance
import Schemata.Proofs.Dispatch
import Schemata.Proofs.InterfaceRelation
import Schemata.Proofs.TypeNames
import Schemata.Proofs.Draft
import Schemata.Proofs.SettledCatalog
import Schemata.Proofs.ArgumentSets
import Schemata.Proofs.Representation
import Schemata.Proofs.Lookup
import Schemata.Proofs.Reordering
import Schemata.Proofs.Roots
import Schemata.Proofs.Requests
import Schemata.Proofs.Supply
import Schemata.Proofs.InterfaceExtension
import Schemata.Proofs.ObjectExtension
import Schemata.Proofs.Enlargement
import Schemata.Proofs.AddedType
import Schemata.Proofs.Serving
import Schemata.Proofs.Histories
import Schemata.Proofs.Violations
import Schemata.Proofs.Revalidation
import Schemata.Proofs.FilledInputs
import Schemata.Proofs.ReceivedArguments
import Schemata.Proofs.CompleteInputs
import Schemata.Proofs.Offers
import Schemata.Proofs.Relisting
import Schemata.Proofs.ClauseOrder
import Schemata.Proofs.EmittedDefaults
import Schemata.Proofs.ShapedLists
import Schemata.Proofs.ShapedLeaves
import Schemata.Proofs.CustomScalars
import Schemata.Proofs.ElementNames
import Schemata.Proofs.BuiltCatalog
import Schemata.Proofs.ElementIdentity
import Schemata.Proofs.DefaultLiterals
import Schemata.Proofs.ParentWalk
import Schemata.Proofs.ExtensionCycles
import Schemata.Proofs.WellReferenced
import Schemata.Proofs.CanonicalOutputs
import Schemata.Proofs.DeferredNames
import Schemata.Proofs.SignatureTexts
import Schemata.Proofs.FlattenedArguments
