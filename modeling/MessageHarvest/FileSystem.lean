import MessageHarvest.FileSystem.Entry

/-!
# File systems

A file system is a tree of directories with one of them to work in. `FileSystem.resolve` follows a
path step by step: `..` leads to the directory that really holds the present one, and a link on the
way is replaced by its target. At most `linkLimit` links are followed.

* `FileSystem.entry` is the entry that a path leads to, `FileSystem.entryItself` the link where it
  is one.
* `FileSystem.read` and `FileSystem.write` read and write whole files.
* `FileSystem.walk` lists a path and all that lies below it.
-/

namespace MessageHarvest

structure FileSystem where
  root : Entry := .directory []
  working : Place := []
deriving Repr, Inhabited

namespace FileSystem

/-! ## Following paths -/

/-- A name of so many bytes still is one. -/
def nameLimit : Nat := 255

/-- The number of links that are followed on one path. -/
def linkLimit : Nat := 40

/-- What a path is followed for: its end, the end itself even if that is a link, or a file to be
written, which may be missing. -/
inductive Purpose where
  | target
  | itself
  | writing
deriving DecidableEq, Repr

/-- The end of a path: an entry, or a name that its directory has no entry for. -/
inductive Target where
  | present (place : Place) (entry : Entry)
  | absent (directory : Place) (name : RawText)
deriving Repr

def entryAt? (fs : FileSystem) (place : Place) : Option Entry :=
  fs.root.at? place.reverse

/-- Where a path starts if it is met in the directory `place`. -/
def start (path : Path) (place : Place) : Place :=
  if path.isAbsolute then [] else place

/-- Takes the steps of a path from the directory `place` on. `follow` takes the steps that are left
when a link has been replaced by its target. -/
def walkSteps (fs : FileSystem) (purpose : Purpose)
    (follow : Place → List RawText → Except FileError Target) :
    Place → List RawText → Except FileError Target
  | place, [] =>
    match fs.entryAt? place with
    | some entry => .ok (.present place entry)
    | none => .error .notFound
  | place, step :: rest =>
    if Path.isIdle step then walkSteps fs purpose follow place rest
    else if step = Path.up then walkSteps fs purpose follow place.tail rest
    else if purpose = .writing ∧ rest ≠ [] ∧ rest.all (· = []) then .error .isDirectory
    else if FileSystem.nameLimit < step.byteCount then .error .nameTooLong
    else
      match fs.entryAt? (step :: place), rest with
      | none, [] => .ok (.absent place step)
      | none, _ :: _ => .error .notFound
      | some (.directory _), _ => walkSteps fs purpose follow (step :: place) rest
      | some (.file content), [] => .ok (.present (step :: place) (.file content))
      | some (.file _), _ :: _ => .error .notDirectory
      | some (.link target), rest =>
        if purpose = .itself ∧ rest = [] then .ok (.present (step :: place) (.link target))
        else follow (start target place) (Path.segments target ++ rest)

/-- Takes the steps of a path and follows at most `links` links. -/
def followSteps (fs : FileSystem) (purpose : Purpose) :
    (links : Nat) → Place → List RawText → Except FileError Target
  | 0 => walkSteps fs purpose fun _ _ => .error .tooManyLinks
  | links + 1 => walkSteps fs purpose (followSteps fs purpose links)

/-- Follows a path from the working directory, or from the root. -/
def resolve (fs : FileSystem) (purpose : Purpose) (path : Path) : Except FileError Target :=
  if path.contains (.char '\x00') then .error .nulInName
  else if path = [] then .error .notFound
  else if path.isTooLong then .error .nameTooLong
  else followSteps fs purpose linkLimit (start path fs.working) path.segments

/-! ## Looking at entries -/

/-- The entry at the end of a path. -/
def entryFor (fs : FileSystem) (purpose : Purpose) (path : Path) : Except FileError Entry :=
  match fs.resolve purpose path with
  | .ok (.present _ entry) => .ok entry
  | .ok (.absent _ _) => .error .notFound
  | .error e => .error e

def entry (fs : FileSystem) (path : Path) : Except FileError Entry :=
  fs.entryFor .target path

/-- The entry at the end of a path; if that is a link, the link. -/
def entryItself (fs : FileSystem) (path : Path) : Except FileError Entry :=
  fs.entryFor .itself path

def «exists» (fs : FileSystem) (path : Path) : Bool :=
  (fs.entry path).isOk

def isFile (fs : FileSystem) (path : Path) : Bool :=
  match fs.entry path with
  | .ok entry => entry.isFile
  | .error _ => false

def isDirectory (fs : FileSystem) (path : Path) : Bool :=
  match fs.entry path with
  | .ok entry => entry.isDirectory
  | .error _ => false

/-- The entries that a directory holds, each with its name. -/
def entries (fs : FileSystem) (path : Path) : List (RawText × Entry) :=
  match fs.entry path with
  | .ok entry => entry.entries
  | .error _ => []

/-- The content of a file. -/
def read (fs : FileSystem) (path : Path) : Except FileError RawText :=
  match fs.entry path with
  | .ok (.file content) => .ok content
  | .ok _ => .error .isDirectory
  | .error e => .error e

/-- The content of a file that has to be text. -/
def readText (fs : FileSystem) (path : Path) : Except FileError String := do
  match RawText.text? (← fs.read path) with
  | some text => return text
  | none => throw .notText

/-- The paths of the entry that `path` leads to and of all below it. Links are followed only at the
end of `path` itself. -/
def walk (fs : FileSystem) (path : Path) : List (Except FileError Path) :=
  match fs.entryItself path, fs.entry path with
  | .error e, _ => [.error e]
  | .ok (.link _), .error e => [.error e]
  | .ok (.link _), .ok entry => entry.paths path
  | .ok entry, _ => entry.paths path

/-! ## Changing entries -/

def put (fs : FileSystem) (place : Place) (entry : Entry) : FileSystem :=
  { fs with root := fs.root.put entry place.reverse }

/-- Writes a whole file, in place of what it held if there is one. -/
def write (fs : FileSystem) (path : Path) (content : RawText) : Except FileError FileSystem :=
  match fs.resolve .writing path with
  | .ok (.present place (.file _)) => .ok (fs.put place (.file content))
  | .ok (.present _ _) => .error .isDirectory
  | .ok (.absent directory name) => .ok (fs.put (name :: directory) (.file content))
  | .error e => .error e

/-- Puts an entry at the end of a path where there is none. -/
def add (fs : FileSystem) (path : Path) (entry : Entry) : FileSystem :=
  match fs.resolve .itself path with
  | .ok (.absent directory name) => fs.put (name :: directory) entry
  | _ => fs

/-- Makes the directories that are missing on the way along `steps` and on from `path`. -/
def addAlong (fs : FileSystem) (path : Path) : (steps : List RawText) → FileSystem
  | [] => fs
  | step :: steps =>
    let path := path.join step
    (fs.add path (.directory [])).addAlong path steps

/-- Makes the directories on a path that are missing. -/
def addDirectories (fs : FileSystem) (path : Path) : FileSystem :=
  let (anchor, body) := path.anchorAndBody
  fs.addAlong anchor (body.filter (!Path.isIdle ·))

/-- Takes away the entry at the end of a path, a directory with all that it holds. -/
def remove (fs : FileSystem) (path : Path) : FileSystem :=
  match fs.resolve .itself path with
  | .ok (.present place _) => { fs with root := fs.root.erase place.reverse }
  | _ => fs

end FileSystem

end MessageHarvest
