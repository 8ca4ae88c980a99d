import MessageHarvest.Command
import MessageHarvest.Config
import MessageHarvest.Scan
import MessageHarvest.Template

/-!
# Projects

A project is a directory with templates and perhaps a configuration file.

* `Project.findConfig` looks for that file in a directory and in those that the spelling of its path
  leads up through. A directory with an entry `.git` is the last one looked at.
* `Project.prepare` settles the configuration of an extraction and scans for templates: what the
  options say comes first, then the configuration file, then the defaults.
* `Project.extract` reads every template that was found.
* `Project.init` makes a configuration file where there is none.
-/

namespace MessageHarvest.Project

/-! ## The configuration file -/

/-- The entry that marks the directory at the top of a project. -/
def boundary : Path := .ofString ".git"

def configName : Path := .ofString Config.fileName

/-- Looks for the configuration file in at most `levels` directories. -/
def findConfigWithin (fs : FileSystem) : (levels : Nat) → Path → Option Path
  | 0, _ => none
  | levels + 1, directory =>
    let file := directory.join configName
    if fs.exists file then some file
    else if fs.exists (directory.join boundary) then none
    else directory.parent?.bind (findConfigWithin fs levels)

/-- The configuration file of the directory or of the nearest one above it. A path leads up through
no more directories than it has characters. -/
def findConfig (fs : FileSystem) (directory : Path) : Option Path :=
  findConfigWithin fs (directory.length + 1) directory

/-- Why a configuration file cannot be used. -/
inductive ConfigError where
  | unreadable (error : FileError)
  | malformed (file : Path) (error : Json.ReadError)
  | invalid (fault : Config.PatternFault)
deriving DecidableEq, Repr

def ConfigError.message : ConfigError → String
  | unreadable error => error.message
  | malformed file error => s!"Failed to parse config file: {RawText.quoted file}: {error.message}"
  | invalid fault => fault.message

/-- The configuration that a file holds. -/
def readConfig (fs : FileSystem) (file : Path) : Except ConfigError Config := do
  let source ← (fs.readText file).mapError .unreadable
  let config ← (Config.parse source).mapError (.malformed file)
  match config.fault? with
  | some fault => throw (.invalid fault)
  | none => return config

/-- The configuration of a directory and whether it comes from a file. -/
def loadConfig (fs : FileSystem) (directory : Path) : Except ConfigError (Config × Bool) :=
  match findConfig fs directory with
  | some file => (·, true) <$> readConfig fs file
  | none => .ok ({}, false)

/-! ## Extraction -/

/-- Why an extraction cannot begin. -/
inductive SetupError where
  | unnamableRoot (path : Path)
  | config (error : ConfigError)
deriving DecidableEq, Repr

def SetupError.message : SetupError → String
  | unnamableRoot path => s!"Invalid path: {RawText.quoted path}"
  | config error => error.message

/-- An extraction that is ready to begin: its configuration and the templates that were found. -/
structure Extraction where
  config : Config
  files : List String
deriving DecidableEq, Repr

/-- The configuration with what the options say in its place. -/
def override (options : ExtractOptions) (config : Config) : Config where
  includes := if options.paths.isEmpty then config.includes else options.paths.map RawText.lossy
  ignores := config.ignores
  policy := options.policy.getD config.policy

/-- Settles the configuration and scans for templates. -/
def prepare (fs : FileSystem) (options : ExtractOptions) : Except SetupError Extraction := do
  let root := options.sourceRoot.getD Path.here
  match RawText.text? root with
  | none => throw (.unnamableRoot root)
  | some base =>
    let (config, _) ← (loadConfig fs (.ofString base)).mapError .config
    let config := override options config
    return { config, files := (scan fs base config.includes config.ignores).files }

/-- The templates that gave messages, in the order of their paths, and all issues. -/
structure Harvest where
  templates : List Template := []
  issues : List Issue := []
deriving DecidableEq, Repr

/-- Reads every template, each on its own. -/
def Extraction.run (extraction : Extraction) (fs : FileSystem) : Harvest :=
  let results := extraction.files.map
    (extractTemplate fs .markers extraction.config.policy)
  { templates := results.filterMap (·.1), issues := results.flatMap (·.2) }

/-! ## New configuration files -/

/-- Makes a configuration file in a directory. Where there is one it is left alone, and the answer
says so. -/
def init (fs : FileSystem) (directory : Path) : Except FileError (Option String × FileSystem) :=
  let file := directory.join configName
  if fs.exists file then .ok (some s!"{Config.fileName} already exists", fs)
  else (none, ·) <$> fs.write file (.ofString Config.defaultText)

end MessageHarvest.Project
