import MessageHarvest.Collector
import MessageHarvest.FileSystem
import MessageHarvest.Issue
import MessageHarvest.Tree.Format

/-!
# Templates

A template is a file with the written form of a tree. `extractTemplate` gives its messages and its
issues: under `FaultPolicy.skip` the messages of the well-formed calls and a warning for every
other, under `FaultPolicy.abort` all messages or none. A file that cannot be read as a tree has one
issue and no messages.
-/

namespace MessageHarvest

/-- The messages of one template, in document order. -/
structure Template where
  file : String
  messages : List Message
deriving DecidableEq, Repr

/-! ## Loading trees -/

/-- Why a file is no tree. -/
inductive LoadError where
  | unreadable (file : String) (error : FileError)
  | malformed (file : String) (error : Json.ReadError)
deriving DecidableEq, Repr

namespace LoadError

/-- What failed. -/
def outer : LoadError → String
  | unreadable file _ => s!"Failed to read file: {file}"
  | malformed file _ => s!"Failed to parse syntax tree: {file}"

/-- Why it failed. -/
def cause : LoadError → String
  | unreadable _ error => error.message
  | malformed _ error => error.message

def message (error : LoadError) : String :=
  s!"{error.outer}: {error.cause}"

end LoadError

/-- The tree that a text of the named file stands for. -/
def Tree.ofText (source file : String) : Except LoadError Tree :=
  (Tree.parse source).mapError (.malformed file)

/-- The tree that a file holds. -/
def Tree.load (fs : FileSystem) (path : Path) : Except LoadError Tree :=
  match fs.readText path with
  | .ok source => Tree.ofText source path.lossy
  | .error error => .error (.unreadable path.lossy error)

/-! ## Extraction -/

/-- The messages of a tree that came from the named file, and its issues. -/
def extractTree (registry : Registry) (policy : FaultPolicy) (file : String) (root : Tree) :
    Option Template × List Issue :=
  match Collector.ready.collect policy registry root with
  | (collector, .ok report) =>
    (some ⟨file, collector.messages.toList⟩,
      report.faults.toList.map fun fault => .malformedCall file fault false)
  | (_, .error fault) => (none, [.malformedCall file fault true])

/-- The messages of a template and its issues. -/
def extractTemplate (fs : FileSystem) (registry : Registry) (policy : FaultPolicy) (file : String) :
    Option Template × List Issue :=
  match Tree.load fs (.ofString file) with
  | .ok root => extractTree registry policy file root
  | .error error => (none, [.parseError file error.message])

end MessageHarvest
