import Schemata.Analysis
import Schemata.Failure
import Schemata.Toml.Reader

namespace Schemata

structure SchemaConfig where
  maxDepth : Nat := 15
  maxComplexity : Nat := 500
  introspection : Bool := true
  inheritInterfaceFields : Bool := true
  queryType : String := "Query"
  mutationType : String := "Mutation"
  deriving DecidableEq, Inhabited

/-- A setting that no schema can be built with; `key` is the offending one. -/
inductive ConfigFault
  | notPositive (key : String)
  | emptyName (key : String)
  | builtinName (key : String)
  | sameRoots
  deriving DecidableEq, Inhabited

def ConfigFault.message : ConfigFault → String
  | .notPositive key => s!"schema.{key} must be > 0"
  | .emptyName key => s!"schema.{key} must not be empty"
  | .builtinName key => s!"schema.{key} must not name a built-in scalar"
  | .sameRoots => "schema.query_type and schema.mutation_type must differ"

namespace SchemaConfig

def checkLimit (key : String) (limit : Nat) : Except ConfigFault Unit :=
  if limit = 0 then .error (.notPositive key) else .ok ()

def checkRootName (key name : String) : Except ConfigFault Unit :=
  if name.isEmpty then .error (.emptyName key)
  else if isBuiltinScalar name then .error (.builtinName key)
  else .ok ()

def validate (config : SchemaConfig) : Except ConfigFault Unit := do
  checkLimit "max_depth" config.maxDepth
  checkLimit "max_complexity" config.maxComplexity
  checkRootName "query_type" config.queryType
  checkRootName "mutation_type" config.mutationType
  if config.queryType = config.mutationType then .error .sameRoots else .ok ()

def analysisOptions (config : SchemaConfig) : AnalysisOptions :=
  { inheritInterfaceFields := config.inheritInterfaceFields
    queryType := config.queryType
    mutationType := config.mutationType }

def readLimit : Toml.Value → Option Nat
  | .integer value => if 0 ≤ value ∧ value < unsigned64Bound then some value.toNat else none
  | _ => none

def readSwitch : Toml.Value → Option Bool
  | .boolean value => some value
  | _ => none

def readName : Toml.Value → Option String
  | .string text => some text
  | _ => none

def keys : List String :=
  ["max_depth", "max_complexity", "introspection", "inherit_interface_fields", "query_type",
    "mutation_type"]

/-- One setting over those read so far; unknown keys are ignored. -/
def readSetting (config : SchemaConfig) (key : String) (value : Toml.Value) : Option SchemaConfig :=
  match key with
  | "max_depth" => (readLimit value).map ({ config with maxDepth := · })
  | "max_complexity" => (readLimit value).map ({ config with maxComplexity := · })
  | "introspection" => (readSwitch value).map ({ config with introspection := · })
  | "inherit_interface_fields" => (readSwitch value).map ({ config with inheritInterfaceFields := · })
  | "query_type" => (readName value).map ({ config with queryType := · })
  | "mutation_type" => (readName value).map ({ config with mutationType := · })
  | _ => some config

/-- Settings are given by key, or as a list in the order of the keys. -/
def ofToml? : Toml.Value → Option SchemaConfig
  | .table entries => entries.foldlM (fun config entry => readSetting config entry.1 entry.2) {}
  | .array items => (keys.zip items).foldlM (fun config entry => readSetting config entry.1 entry.2) {}
  | _ => none

def read? (text : String) : Option SchemaConfig := do
  let document ← Toml.read? text
  match Table.get? document "schema" with
  | some value => ofToml? value
  | none => some {}

/-- Reads and validates; the reason is given for a setting, not for a text that cannot be read. -/
def load (text : String) : Except (Option Failure) SchemaConfig :=
  match read? text with
  | none => .error none
  | some config =>
    match config.validate with
    | .ok () => .ok config
    | .error fault => .error (some (.invalidConfig fault.message))

end SchemaConfig

end Schemata
