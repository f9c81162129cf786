import Schemata.ConcreteType
import Schemata.Problem

namespace Schemata

inductive Failure
  | schemaUnavailable
  | buildFailed (error : GenerationError)
  | invalidConfig (reason : String)
  | discrimination (error : DiscriminationError)
  | resolver (error : ResolverError)
  deriving DecidableEq, Inhabited

structure FieldError where
  message : String
  code : Option String
  deriving DecidableEq, Inhabited

/-- Errors are ordered by their text, then by their code; one without a code comes first. -/
def FieldError.le (a b : FieldError) : Bool :=
  a.message < b.message || a.message = b.message &&
    match a.code, b.code with
    | none, _ => true
    | some _, none => false
    | some c, some d => c ≤ d

namespace Failure

def message : Failure → String
  | .schemaUnavailable => "No schema has been built"
  | .buildFailed error => s!"Failed to build schema: {error.message}"
  | .invalidConfig reason => s!"Invalid schema configuration: {reason}"
  | .discrimination error => error.message
  | .resolver error => error.message

def code : Failure → String
  | .schemaUnavailable => "SCHEMA_UNAVAILABLE"
  | .buildFailed _ => "SCHEMA_BUILD_FAILED"
  | .invalidConfig _ => "INVALID_CONFIG"
  | .discrimination _ => "ABSTRACT_TYPE_UNRESOLVED"
  | .resolver _ => "RESOLVER_ERROR"

def cause? : Failure → Option String
  | .buildFailed error => some error.message
  | .discrimination error => some error.message
  | .resolver error => some error.message
  | .schemaUnavailable | .invalidConfig _ => none

def toFieldError (failure : Failure) : FieldError :=
  ⟨failure.message, some failure.code⟩

end Failure

end Schemata
