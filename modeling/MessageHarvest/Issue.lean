import MessageHarvest.Call

/-!
# Issues

What a run has to tell about the templates: a malformed call, or a template that could not be read.
An issue says where it is, how severe it is, which rule it comes under and perhaps what to do about
it.

A malformed call is a warning while the rest of its template is used, and an error if it ended the
extraction of the template.
-/

namespace MessageHarvest

inductive Severity where
  | error
  | warning
deriving DecidableEq, Repr

def Severity.name : Severity → String
  | error => "error"
  | warning => "warning"

/-- The kinds of issue, in the order in which they are reported of one line. -/
inductive Rule where
  | malformedCall
  | parseError
deriving DecidableEq, Repr

namespace Rule

def name : Rule → String
  | malformedCall => "malformed-call"
  | parseError => "parse-error"

def rank : Rule → Nat
  | malformedCall => 0
  | parseError => 1

end Rule

/-- Where an issue is: on a line of a file, or in a file as a whole. -/
inductive Location where
  | source (path : String) (line : UInt64)
  | file (path : String)
deriving DecidableEq, Repr

namespace Location

def path : Location → String
  | source path _ => path
  | file path => path

/-- The line of a location; a file as a whole comes before its lines. -/
def line : Location → UInt64
  | source _ line => line
  | file _ => 0

end Location

inductive Issue where
  | malformedCall (file : String) (fault : CallFault) (aborted : Bool)
  | parseError (file : String) (reason : String)
deriving DecidableEq, Repr

namespace Issue

def severity : Issue → Severity
  | malformedCall _ _ aborted => if aborted then .error else .warning
  | parseError _ _ => .error

def rule : Issue → Rule
  | malformedCall .. => .malformedCall
  | parseError .. => .parseError

def location : Issue → Location
  | malformedCall file fault _ => .source file fault.line
  | parseError file _ => .file file

def message : Issue → String
  | malformedCall _ fault _ => fault.message
  | parseError _ reason => reason

/-- What to do about the issue. -/
def hint? : Issue → Option String
  | malformedCall _ _ true =>
    some "extraction of this template stopped here (use --on-error skip to continue past it)"
  | malformedCall _ _ false => some "pass the message as a string literal, e.g. _(\"Hello\")"
  | parseError _ _ => none

end Issue

end MessageHarvest
