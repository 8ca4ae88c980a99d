import MessageHarvest.Glob.Expansion

/-!
# Scanning for template trees

A scan lists the files that hold template trees at and below the included paths, but for ignored
ones.

* `Scan.roots` are the paths that the includes name; without includes the base directory is scanned.
* `Ignores.covers` decides what is ignored: paths that start with the steps of an ignored path, and
  paths that match an ignored pattern when they are written from the base directory on. An ignored
  directory is still walked through; the files in it are judged by their own paths.
* `scan` gives each file once, in order, with the number of places that could not be looked at.
-/

namespace MessageHarvest

/-- The ending of the names of template trees. -/
def treeSuffix : String := ".ast.json"

/-- Whether a path ends in a name that says it is a template tree. -/
def isTreePath (path : Path) : Bool :=
  match path.fileName?.bind RawText.text? with
  | some name =>
    treeSuffix.toList.isSuffixOf name.toList && treeSuffix.length < name.length
  | none => false

/-! ## Ignored paths -/

/-- What is left out of a scan. -/
structure Ignores where
  paths : List Path := []
  patterns : List Glob.Pattern := []
deriving Repr

namespace Ignores

/-- Texts with wildcards are patterns, of which invalid ones are passed over; the others are paths.
-/
def ofTexts (base : Path) (texts : List String) : Ignores where
  paths := (texts.filter (!Glob.hasWildcard ·)).map fun text => base.join (.ofString text)
  patterns := (texts.filter Glob.hasWildcard).filterMap fun text =>
    (Glob.Pattern.parse text).toOption

/-- Whether a path is matched by a pattern. Only text is matched. -/
def isMatched (path : Path) (pattern : Glob.Pattern) : Bool :=
  match path.text? with
  | some text => pattern.matches text.toList
  | none => false

/-- Whether a path is ignored. -/
def covers (ignores : Ignores) (base path : Path) : Bool :=
  ignores.paths.any path.startsWith ||
    ignores.patterns.any (isMatched ((path.stripPrefix? base).getD path))

end Ignores

/-! ## Scans -/

/-- The files that a scan found, and the number of places that it could not look at. -/
structure Scan where
  files : List String := []
  skipped : Nat := 0
deriving DecidableEq, Repr

namespace Scan

/-- The paths that one include names: what a pattern stands for, or a path that exists. -/
def rootsOf (fs : FileSystem) (base : Path) (text : String) : List Path :=
  let path := base.join (.ofString text)
  if Glob.hasWildcard text then (Glob.expand fs (RawText.lossy path)).toOption.getD []
  else if fs.exists path then [path]
  else []

def roots (fs : FileSystem) (base : Path) (includes : List String) : List Path :=
  if includes.isEmpty then [base] else includes.flatMap (rootsOf fs base)

/-- Whether a path that was met on the way is a file to be listed. -/
def accepts (fs : FileSystem) (base : Path) (ignores : Ignores) (path : Path) : Bool :=
  !ignores.covers base path && fs.isFile path && isTreePath path

/-- The texts in ascending order, each once. -/
def inOrder (texts : List String) : List String :=
  texts.eraseDups.mergeSort

theorem mem_inOrder {text : String} {texts : List String} :
    text ∈ inOrder texts ↔ text ∈ texts := by
  simp [inOrder, List.mem_mergeSort, List.mem_eraseDups]

end Scan

/-- Scans the included paths below the base directory. -/
def scan (fs : FileSystem) (base : String) (includes ignores : List String) : Scan :=
  let base : Path := .ofString base
  let ignores := Ignores.ofTexts base ignores
  let met := (Scan.roots fs base includes).flatMap fs.walk
  let files := (met.filterMap Except.toOption).filter (Scan.accepts fs base ignores)
  { files := Scan.inOrder (files.map RawText.lossy)
    skipped := met.countP fun outcome => !outcome.isOk }

end MessageHarvest
