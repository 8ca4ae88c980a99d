import MessageHarvest.Program

/-!
# The executable

Takes in the part of the disk that the program can look at, runs the program on it, writes out what
it says, and puts a new configuration file on the disk if it made one.
-/

namespace MessageHarvest.Main

/-- The place of an absolute path without links and dots. -/
def placeOf (path : String) : Place :=
  (Path.segments (.ofString path)).reverse.filter (!Path.isIdle ·)

/-- The path without links and dots of something on the disk, if it is there. -/
def realPath? (path : String) : IO (Option String) := do
  match ← (IO.FS.realPath path).toBaseIO with
  | .ok real => return some real.toString
  | .error _ => return none

/-- The content of a file. Only those of template trees and configurations matter. -/
def content (path name : String) : IO RawText := do
  let name := RawText.ofString name
  if isTreePath name || name == Project.configName then
    return RawText.decode (← IO.FS.readBinFile path).toList
  else return []

/-- Takes in what an absolute path leads to, with all below it. Links to files are taken in as
files, links to directories with the directories; links that lead nowhere are left out. -/
partial def takeIn (fs : FileSystem) (path name : String) : IO FileSystem := do
  let some real ← realPath? path | return fs
  let directory ← IO.FS.realPath real
  match (← directory.metadata).type with
  | .file => return fs.put (placeOf path) (.file (← content path name))
  | .dir =>
    if real ≠ path then
      let fs := fs.put (placeOf path) (.link (.ofString real))
      if (fs.entryAt? (placeOf real)).isSome then return fs else takeIn fs real name
    else
      let mut fs := fs.put (placeOf path) (.directory [])
      for entry in ← directory.readDir do
        fs ← takeIn fs entry.path.toString entry.fileName
      return fs
  | _ => return fs

/-- Takes in the entries that tell where a project ends, in the directories above a place. -/
def takeInMarks (fs : FileSystem) : Place → IO FileSystem
  | [] => return fs
  | _ :: above => do
    let directory := "".intercalate (above.reverse.map fun name => "/" ++ name.lossy)
    let mut fs := fs
    for name in [Config.fileName, ".git"] do
      let path := directory ++ "/" ++ name
      if (fs.entryAt? (placeOf path)).isNone && (← realPath? path).isSome then
        fs := fs.put (placeOf path) (.file (← content path name))
    takeInMarks fs above

/-- Takes in a path of the disk and the marks above it. -/
def takeInPath (fs : FileSystem) (path : String) : IO FileSystem := do
  let some real ← realPath? path | return fs
  let place := placeOf real
  let fs ← if (fs.entryAt? place).isSome then pure fs else takeIn fs real ""
  takeInMarks fs place

/-- Puts the configuration file on the disk if it is new. -/
def putOut (old new : FileSystem) : IO Unit :=
  match old.readText Project.configName, new.readText Project.configName with
  | .error _, .ok text => IO.FS.writeFile Config.fileName text
  | _, _ => pure ()

end MessageHarvest.Main

open MessageHarvest in
def main (arguments : List String) : IO UInt32 := do
  let working := (← IO.currentDir).toString
  let mut fs : FileSystem := { working := Main.placeOf working }
  for path in working :: arguments do
    fs ← Main.takeInPath fs path
  let (ending, after) := Program.run fs false (arguments.map .ofString)
  Main.putOut fs after
  IO.print ending.streams.stdout
  IO.eprint ending.streams.stderr
  return UInt32.ofNat ending.code
