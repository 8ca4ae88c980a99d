import MessageHarvest.CommandLine
import MessageHarvest.Project
import MessageHarvest.Report

/-!
# The program

From arguments and a file system to what is written and how the program ends.

* `Program.perform` carries out a command in a project; it fails where the project cannot be set up.
* `Program.runCommand` tells the outcome; `Program.run` also tells failures and answers requests for
  help.

A run depends on its arguments and on the files, and on nothing else. This assumes that the streams
take all that is written to them, that a file is read or written as a whole once it is open, and
that no permission is missing. The log is left out of the standard error; its lines carry the time.
-/

namespace MessageHarvest.Program

/-! ## Fixed texts -/

def versionText : String := "gettext-scan 0.1.0\n"

def helpText : String :=
  "Extract translatable messages from parsed template syntax trees\n" ++
  "\n" ++
  "Usage: gettext-scan [COMMAND]\n" ++
  "\n" ++
  "Commands:\n" ++
  "  extract  Extract translatable messages from serialized template trees\n" ++
  "  init     Initialize a new .gettextscanrc.json configuration file\n" ++
  "  help     Print this message or the help of the given subcommand(s)\n" ++
  "\n" ++
  "Options:\n" ++
  "  -h, --help     Print help\n" ++
  "  -V, --version  Print version\n"

/-- What is said of arguments that are no command. The words are chosen here, and unlike those of
the program they do not name the argument that is refused. -/
def usageText (refusal : CommandLine.Refusal) : String :=
  let reason := match refusal with
    | .unknownCommand => "unrecognized subcommand"
    | .unknownArgument => "unexpected argument found"
    | .invalidValue => "invalid value for an argument"
    | .unwantedValue => "unexpected value for an argument"
    | .repeatedOption => "an argument cannot be used multiple times"
    | .helpWanted => "help requested"
    | .versionWanted => "version requested"
  s!"error: {reason}\n\nUsage: gettext-scan [COMMAND]\n\nFor more information, try '--help'.\n"

/-! ## Commands -/

/-- Why a command could not be carried out. -/
inductive Failure where
  | setup (error : Project.SetupError)
  | file (error : FileError)
deriving DecidableEq, Repr

def Failure.message : Failure → String
  | setup error => error.message
  | file error => error.message

/-- Extracts the messages of the project in the working directory. -/
def performExtract (fs : FileSystem) (options : ExtractOptions) : Except Failure Outcome := do
  let extraction ← (Project.prepare fs options).mapError .setup
  let harvest := extraction.run fs
  return .finish (.extract harvest.templates extraction.files.length options.format) harvest.issues

/-- Makes a configuration file in a directory. -/
def performInit (fs : FileSystem) (directory : Path) : Except Failure (Outcome × FileSystem) := do
  let (error, fs) ← (Project.init fs directory).mapError .file
  return (.finish (.init error) [], fs)

/-- Carries out a command and gives its outcome and the files as they are then. -/
def perform (fs : FileSystem) : Command → Except Failure (Outcome × FileSystem)
  | .extract options => (·, fs) <$> performExtract fs options
  | .init => performInit fs Path.here

/-! ## Runs -/

/-- How a run of the program ends: what it wrote, and its exit code. -/
structure Ending where
  code : Nat
  streams : Report.Streams
deriving DecidableEq, Repr

/-- Carries out a command and reports it. Without a command there is help. -/
def runCommand (fs : FileSystem) (colors : Bool) :
    Option Command → Except Failure (Ending × FileSystem)
  | none => .ok (⟨Status.success.code, { stdout := helpText }⟩, fs)
  | some command => do
    let (outcome, fs) ← perform fs command
    return (⟨outcome.status.code, Report.streams colors outcome⟩, fs)

/-- The end of a run whose arguments are no command. Only the code and the choice of the stream are
meant to be exact: a request for the help of one command is answered with the help of the whole
program. -/
def refuse : CommandLine.Refusal → Ending
  | .helpWanted => ⟨Status.success.code, { stdout := helpText }⟩
  | .versionWanted => ⟨Status.success.code, { stdout := versionText }⟩
  | refusal => ⟨Status.error.code, { stderr := usageText refusal }⟩

/-- Runs the program with its arguments. -/
def run (fs : FileSystem) (colors : Bool) (arguments : List RawText) : Ending × FileSystem :=
  match CommandLine.parse arguments with
  | .error refusal => (refuse refusal, fs)
  | .ok command =>
    match runCommand fs colors command with
    | .ok (ending, fs) => (ending, fs)
    | .error failure => (⟨Status.error.code, { stderr := s!"Error: {failure.message}\n" }⟩, fs)

end MessageHarvest.Program
