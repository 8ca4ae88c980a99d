import MessageHarvest.Glob.Pattern
import MessageHarvest.FileSystem

/-!
# Expanding glob patterns

The paths of a file system that a pattern stands for. The pattern is taken apart at its separators,
and each part is a pattern of its own.

* A part without wildcards is a step, whether or not its directory can be listed.
* A part with wildcards stands for the names of a directory that it matches; `.` and `..` are among
  them only if it begins with a dot.
* A part `**` stands for the directories below, at any depth, and lets the next part match there.
  Links to directories are followed.

A pattern that ends in a separator stands for directories only. What is a directory is known from
the listing in which it was met (`Spot`), so that a path can be given that is too long to be
followed. `expand` gives the paths in no order.
-/

namespace MessageHarvest.Glob

/-- The parts of a pattern between separators, without the empty one after a separator at the end.
-/
def parts (pattern : Path) : List RawText :=
  let segments := pattern.segments
  if segments.getLast? = some [] then segments.dropLast else segments

/-- Takes consecutive parts `**` together. -/
def collapse : List Pattern → List Pattern
  | [] => []
  | p :: ps =>
    match collapse ps with
    | [] => [p]
    | q :: qs => if p.isRecursive && q.isRecursive then q :: qs else p :: q :: qs

/-- A path that was met on the way, and whether it is known to lead to a directory. -/
structure Spot where
  path : Path
  isDirectory : Bool
deriving DecidableEq, Repr

section

variable (fs : FileSystem)

/-- What is known of a path by following it. -/
def Spot.ofPath (path : Path) : Spot where
  path
  isDirectory := fs.isDirectory path

/-- What is known of a path whose entry was met when its directory was listed. Only a link has to be
followed; of other entries it is known what they are even if their path is too long. -/
def Spot.ofEntry (path : Path) : Entry → Spot
  | .directory _ => ⟨path, true⟩
  | .file _ => ⟨path, false⟩
  | .link _ => .ofPath fs path

/-- The path of a name in a directory. In the working directory a name is its own path. -/
def inDirectory (path : Path) (name : RawText) : Path :=
  if path.components = [.here] then name else path.join name

/-- All that a directory holds. -/
def held (path : Path) : List Spot :=
  (fs.entries path).map fun (name, entry) => .ofEntry fs (inDirectory path name) entry

/-- All that lies at most `levels` deep below a directory, and no deeper than a path can be written.
-/
def below : (levels : Nat) → Path → List Spot
  | 0, _ => []
  | levels + 1, path =>
    (held fs path).flatMap fun spot =>
      spot :: if spot.isDirectory then below levels spot.path else []

/-- Whether the name that a path ends in is matched. Only text is matched. -/
def endsIn (pattern : Pattern) (path : Path) : Bool :=
  match path.fileName?.bind RawText.text? with
  | some name => pattern.matches name.toList
  | none => false

/-- Whether a step without wildcards can be taken from `spot` to `next`. -/
def canStep (spot : Spot) (next : Path) (step : RawText) : Bool :=
  if step = Path.here ∨ step = Path.up then spot.isDirectory
  else fs.exists next || (fs.entryItself next).isOk

/-- What a part with wildcards stands for in a directory. -/
def matching (pattern : Pattern) (path : Path) : List Spot :=
  if fs.isDirectory path then
    let dots := if pattern.tokens.head? = some (.char '.') then [Path.here, Path.up] else []
    let dots := dots.filter fun name => pattern.matches (RawText.lossy name).toList
    dots.map (fun name => .ofPath fs (path.join name)) ++
      (held fs path).filter fun spot => endsIn pattern spot.path
  else []

/-- The paths that the parts stand for from `spot` on. -/
def expandFrom (directoriesOnly : Bool) : List Pattern → Spot → List Path
  | [], spot => if directoriesOnly && !spot.isDirectory then [] else [spot.path]
  | p :: ps, spot =>
    if p.isRecursive then
      let spots := below fs Path.sizeLimit spot.path
      match ps with
      | [] => (spots.filter Spot.isDirectory).map Spot.path
      | q :: qs =>
        (spots.filter fun spot => endsIn q spot.path).flatMap (expandFrom directoriesOnly qs)
    else match p.literal? with
      | some step =>
        let step := step.map Glyph.char
        let next := inDirectory spot.path step
        if canStep fs spot next step then expandFrom directoriesOnly ps (.ofPath fs next) else []
      | none => (matching fs p spot.path).flatMap (expandFrom directoriesOnly ps)

/-- The paths that a pattern stands for. -/
def expand (pattern : String) : Except PatternError (List Path) := do
  let _ ← Pattern.parse pattern
  let path : Path := RawText.ofString pattern
  let patterns ← (parts (if path.isAbsolute then path.tail else path)).mapM fun part =>
    Pattern.parse part.lossy
  let start := if path.isAbsolute then [Path.separator] else Path.here
  let directoriesOnly := path.getLast? = some Path.separator
  return expandFrom fs directoriesOnly (collapse patterns) (.ofPath fs start)

end

end MessageHarvest.Glob
