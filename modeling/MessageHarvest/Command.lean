import MessageHarvest.Path
import MessageHarvest.Traversal

/-!
# Commands

What the program can be told to do: extract the messages of a project, or make it a configuration
file.
-/

namespace MessageHarvest

/-- The form of an extraction's report. -/
inductive ReportFormat where
  | human
  | json
deriving DecidableEq, Repr

namespace ReportFormat

def name : ReportFormat → String
  | human => "human"
  | json => "json"

def all : List ReportFormat := [human, json]

def ofName? (name : String) : Option ReportFormat :=
  all.find? (·.name = name)

end ReportFormat

/-- How messages are to be extracted. Paths and a policy that are given come before those of the
project's configuration. `verbose` only asks for more lines in the log, which is left out here:
nothing depends on it. -/
structure ExtractOptions where
  sourceRoot : Option Path := none
  verbose : Bool := false
  paths : List Path := []
  format : ReportFormat := .human
  policy : Option FaultPolicy := none
deriving DecidableEq, Repr

inductive Command where
  | extract (options : ExtractOptions)
  | init
deriving DecidableEq, Repr

end MessageHarvest
