import MessageHarvest.Glob.Pattern
import MessageHarvest.Json.Field
import MessageHarvest.Json.Write
import MessageHarvest.Traversal

/-!
# Configuration

A project may say which paths are scanned, which are left out, and what a malformed call leads to. A
configuration is written as an object of three fields; a field that is left out has its default, and
fields of other names are passed over.

* `Config.parse` reads a configuration from a text, `Config.toJson` writes its value.
* `Config.fault?` tells the first pattern of a configuration that cannot be used, if there is one.
  An include without wildcards is a path and needs no pattern; every ignore has to be a pattern.
-/

namespace MessageHarvest

structure Config where
  includes : List String := ["templates"]
  ignores : List String := []
  policy : FaultPolicy := default
deriving DecidableEq, Repr

namespace Config

/-- The name of the file that holds the configuration of a project. -/
def fileName : String := ".gettextscanrc.json"

/-! ## Writing -/

def textsJson (texts : List String) : Json :=
  .array (texts.map .string)

def toJson (config : Config) : Json :=
  .object [("includes", textsJson config.includes), ("ignores", textsJson config.ignores),
    ("onError", .string config.policy.name)]

def write (config : Config) : String :=
  config.toJson.compact

/-- The text of a new configuration file. -/
def defaultText : String :=
  Json.pretty (toJson {})

/-! ## Reading -/

/-- The fields of a configuration that have been read so far. -/
structure Fields where
  includes : Option (List String) := none
  ignores : Option (List String) := none
  policy : Option FaultPolicy := none

/-- The configuration with these fields, and defaults for the others. -/
def ofFields (fields : Fields) : Config where
  includes := fields.includes.getD (includes {})
  ignores := fields.ignores.getD (ignores {})
  policy := fields.policy.getD default

def policyReader : Json.Reader FaultPolicy := fun source => do
  let (name, rest) ← Json.caseName (FaultPolicy.all.map FaultPolicy.name) source
  return ((FaultPolicy.ofName? name).getD default, rest)

def readField (bound : Nat) (fields : Fields) (key : String) : Json.Reader Fields :=
    fun source => do
  match key with
  | "includes" =>
    let (includes, rest) ← Json.field key fields.includes (Json.texts bound) source
    return ({ fields with includes }, rest)
  | "ignores" =>
    let (ignores, rest) ← Json.field key fields.ignores (Json.texts bound) source
    return ({ fields with ignores }, rest)
  | "onError" =>
    let (policy, rest) ← Json.field key fields.policy policyReader source
    return ({ fields with policy }, rest)
  | _ => return (fields, ← Json.unknownField bound source)

/-- Reads the fields of a configuration up to the end of the object. -/
def ofObject (bound : Nat) : Json.Reader Config := fun source => do
  let (fields, rest) ← Json.Container.foldEntries (readField bound) bound true {} source
  return (ofFields fields, rest)

/-- Reads the fields of a configuration in order up to the end of the list, which may come early. -/
def ofList (bound : Nat) : Json.Reader Config := fun source => do
  let (includes, rest) ← Json.element? true (Json.texts bound) source
  let (ignores, rest) ← Json.element? includes.isNone (Json.texts bound) rest
  let (policy, rest) ← Json.element? ignores.isNone policyReader rest
  return (ofFields { includes, ignores, policy }, ← Json.Container.endList rest)

def reader (bound : Nat) : Json.Reader Config :=
  Json.record "struct Config" (ofList bound) (ofObject bound)

/-- The configuration that a text stands for. -/
def parse (source : String) : Except Json.ReadError Config :=
  Json.read reader source

/-! ## Patterns that cannot be used -/

/-- A pattern of a configuration that is no glob pattern, and the field it stands in. -/
structure PatternFault where
  field : String
  pattern : String
  error : Glob.PatternError
deriving DecidableEq, Repr

def PatternFault.message (fault : PatternFault) : String :=
  s!"Invalid glob pattern in '{fault.field}': \"{fault.pattern}\": {fault.error.message}"

/-- The fault of the text as a pattern of the field, if it is none. -/
def patternFault? (field pattern : String) : Option PatternFault :=
  match Glob.Pattern.parse pattern with
  | .ok _ => none
  | .error error => some { field, pattern, error }

/-- The first pattern that cannot be used, the ignores before the includes. -/
def fault? (config : Config) : Option PatternFault :=
  config.ignores.findSome? (patternFault? "ignores") <|>
    (config.includes.filter Glob.hasWildcard).findSome? (patternFault? "includes")

end Config

end MessageHarvest
