import MessageHarvest.Program
import MessageHarvest.Proofs.FileSystem.Gained

/-!
# What making a configuration file changes

Whether there is a configuration file is asked by a path, and the file is made by the same path.
There may be links on that path and at its end, leading to other files, to directories, nowhere or
round in circles. In no case is a file overwritten.

* `Program.filesAfter`: the files when a command has ended. `Program.files_run_init`: they are what
  a run of `init` leaves.
* `Program.performInit_cases`: making a configuration file fails, finds one, or makes one new file.
* `Program.performInit_keeps_files`: no content changes, one file is made or none, and it is made
  only once.
-/

namespace MessageHarvest.Program

variable {fs : FileSystem} {directory : Path}

/-- The files as they are after a command: as they were, if it could not be carried out. -/
def filesAfter (fs : FileSystem) : Except Failure (Outcome × FileSystem) → FileSystem
  | .ok (_, after) => after
  | .error _ => fs

/-- The outcome of `init` where there is a configuration file. -/
def alreadyThere : Outcome :=
  .finish (.init (some s!"{Config.fileName} already exists")) []

theorem files_run_init {arguments : List RawText} (fs : FileSystem) (colors : Bool)
    (hinit : CommandLine.parse arguments = .ok (some .init)) :
    (run fs colors arguments).2 = filesAfter fs (performInit fs Path.here) := by
  rw [run, hinit]
  dsimp only [runCommand, perform]
  cases performInit fs Path.here with
  | error e => rfl
  | ok outcome => rfl

theorem performInit_of_exists (hexists : fs.exists (directory.join Project.configName) = true) :
    performInit fs directory = .ok (alreadyThere, fs) := by
  rw [performInit, Project.init, hexists]
  rfl

theorem performInit_of_not_exists
    (hexists : fs.exists (directory.join Project.configName) = false) :
    performInit fs directory =
      match fs.write (directory.join Project.configName) (.ofString Config.defaultText) with
      | .ok fs' => .ok (.finish (.init none) [], fs')
      | .error e => .error (.file e) := by
  rw [performInit, Project.init, hexists]
  cases fs.write (directory.join Project.configName) (.ofString Config.defaultText) <;> rfl

/-- Making a configuration file fails, or there is one, or there is one new file to which the path
then leads. -/
theorem performInit_cases (hworking : fs.DirectoryAt fs.working) (directory : Path) :
    (∃ e, performInit fs directory = .error (.file e)) ∨
      (fs.exists (directory.join Project.configName) = true ∧
        performInit fs directory = .ok (alreadyThere, fs)) ∨
      ∃ fs' above name, performInit fs directory = .ok (.finish (.init none) [], fs') ∧
        fs.Gains fs' above name (.ofString Config.defaultText) ∧
        fs'.resolve .target (directory.join Project.configName) =
          .ok (.present (name :: above) (.file (.ofString Config.defaultText))) := by
  cases hexists : fs.exists (directory.join Project.configName) with
  | true => exact .inr (.inl ⟨rfl, performInit_of_exists hexists⟩)
  | false =>
    have hinit := performInit_of_not_exists hexists
    rcases FileSystem.write_of_not_exists hworking hexists (.ofString Config.defaultText) with
      ⟨e, hwrite⟩ | ⟨fs', above, name, hwrite, hgains, hends⟩
    · rw [hwrite] at hinit
      exact .inl ⟨e, hinit⟩
    · rw [hwrite] at hinit
      exact .inr (.inr ⟨fs', above, name, hinit, hgains, hends⟩)

/-- In a file system with any links, of which a directory is the one to work in, `init` in any
directory changes the content of no file, looked for by place or by path. If it fails or finds a
configuration file, nothing changes at all. Otherwise the path of the configuration file leads to
one new file with the text of the defaults, nothing else has changed, and a second `init` counts the
file as an error and changes nothing. -/
theorem performInit_keeps_files (hworking : fs.DirectoryAt fs.working) (directory : Path) :
    let fs' := filesAfter fs (performInit fs directory)
    (∀ place content, fs.entryAt? place = some (.file content) →
        fs'.entryAt? place = some (.file content)) ∧
      (∀ path content, fs.read path = .ok content → fs'.read path = .ok content) ∧
      ((∃ e, performInit fs directory = .error (.file e) ∧ fs' = fs) ∨
        (fs.exists (directory.join Project.configName) = true ∧
          performInit fs directory = .ok (alreadyThere, fs) ∧ fs' = fs) ∨
        ∃ above name, performInit fs directory = .ok (.finish (.init none) [], fs') ∧
          fs.Gains fs' above name (.ofString Config.defaultText) ∧
          fs'.resolve .target (directory.join Project.configName) =
            .ok (.present (name :: above) (.file (.ofString Config.defaultText))) ∧
          performInit fs' directory = .ok (alreadyThere, fs')) ∧
      alreadyThere.errorCount = 1 := by
  intro fs'
  rcases performInit_cases hworking directory with
    ⟨e, hinit⟩ | ⟨hexists, hinit⟩ | ⟨made, above, name, hinit, hgains, hends⟩
  · have hsame : fs' = fs := congrArg (filesAfter fs) hinit
    rw [hsame]
    exact ⟨fun _ _ => id, fun _ _ => id, .inl ⟨e, hinit, rfl⟩, rfl⟩
  · have hsame : fs' = fs := congrArg (filesAfter fs) hinit
    rw [hsame]
    exact ⟨fun _ _ => id, fun _ _ => id, .inr (.inl ⟨hexists, hinit, rfl⟩), rfl⟩
  · have hmade : fs' = made := congrArg (filesAfter fs) hinit
    have hexists : made.exists (directory.join Project.configName) = true :=
      FileSystem.exists_iff.mpr ⟨_, by rw [FileSystem.entry_eq_entryOf, hends]; rfl⟩
    rw [hmade]
    exact ⟨fun _ _ => hgains.entryAt?_file, fun _ _ => hgains.read,
      .inr (.inr ⟨above, name, hinit, hgains, hends, performInit_of_exists hexists⟩), rfl⟩

/-- A project behind a link, with a link for its configuration file that leads nowhere. -/
def dangling : FileSystem where
  root := .directory
    [(.ofString "way", .link (.ofString "project")),
      (.ofString "project", .directory
        [(Project.configName, .link (.ofString "../settings/scan.json"))]),
      (.ofString "settings", .directory [(.ofString "other.json", .file (.ofString "[]"))])]

/-- The file is made where the link leads, next to the one that is there. -/
theorem performInit_keeps_files_dangling :
    let fs' := filesAfter dangling (performInit dangling (.ofString "way"))
    dangling.DirectoryAt dangling.working ∧
      dangling.read (.ofString "settings/scan.json") = .error .notFound ∧
      fs'.read (.ofString "settings/scan.json") = .ok (.ofString Config.defaultText) ∧
      fs'.read (.ofString "settings/other.json") = .ok (.ofString "[]") ∧
      performInit fs' (.ofString "way") = .ok (alreadyThere, fs') := by
  intro fs'
  have hworking : dangling.DirectoryAt dangling.working := ⟨_, rfl⟩
  obtain ⟨-, hread, hends, -⟩ := performInit_keeps_files hworking (.ofString "way")
  have hother := hread (.ofString "settings/other.json") (.ofString "[]") (by decide)
  refine ⟨hworking, by decide +kernel, by decide +kernel, hother, ?_⟩
  rcases hends with ⟨e, hfailed, -⟩ | ⟨hexists, -, -⟩ | ⟨_, _, -, -, -, hagain⟩
  · have hcarried : (performInit dangling (.ofString "way")).isOk = true := by decide +kernel
    rw [hfailed] at hcarried
    cases hcarried
  · have habsent : dangling.exists (Path.join (.ofString "way") Project.configName) = false := by
      decide +kernel
    cases hexists.symm.trans habsent
  · exact hagain

end MessageHarvest.Program
