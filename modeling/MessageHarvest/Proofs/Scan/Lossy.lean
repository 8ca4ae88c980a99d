import MessageHarvest.Proofs.Scan.Found
import MessageHarvest.Template

/-!
# Files and their names

A scan meets paths and gives texts. A path with stray bytes is given as another text, with which the
file cannot be found again.

* `Scan.found` are the paths that a scan accepts.
* `Scan.files_name_found_iff`: the files of a scan are these paths, each for itself, just when all
  of them are text. Then no template is given up on account of its path.
* `Scan.file_lost`: a file in a directory whose name is not text is lost, or taken for another one.
-/

namespace MessageHarvest

namespace Scan

variable {fs : FileSystem} {base : String} {includes ignores : List String}

/-- The paths that a scan accepts. -/
def found (fs : FileSystem) (base : String) (includes ignores : List String) : List Path :=
  ((roots fs (.ofString base) includes).flatMap fs.walk).filterMap Except.toOption |>.filter
    (accepts fs (.ofString base) (.ofTexts (.ofString base) ignores))

theorem mem_found {path : Path} :
    path ∈ found fs base includes ignores ↔
      (∃ root ∈ roots fs (.ofString base) includes, .ok path ∈ fs.walk root) ∧
        accepts fs (.ofString base) (.ofTexts (.ofString base) ignores) path := by
  have hoption : ∀ outcome : Except FileError Path,
      outcome.toOption = some path ↔ outcome = .ok path := by
    intro outcome
    cases outcome <;> simp [Except.toOption]
  simp only [found, List.mem_filter, List.mem_filterMap, List.mem_flatMap, hoption,
    exists_eq_right]

/-- Each accepted path is shown as a text, and nothing else is listed. -/
theorem mem_files {file : String} :
    file ∈ (scan fs base includes ignores).files ↔
      ∃ path ∈ found fs base includes ignores, path.lossy = file :=
  mem_inOrder.trans List.mem_map

/-- A path that is accepted leads to a file. -/
theorem read_of_mem_found {path : Path} (h : path ∈ found fs base includes ignores) :
    ∃ content, fs.read path = .ok content := by
  have haccepts := (mem_found.mp h).2
  rw [accepts, Bool.and_eq_true, Bool.and_eq_true] at haccepts
  obtain ⟨content, hcontent⟩ := FileSystem.entry_of_isFile haccepts.1.2
  exact ⟨content, by rw [FileSystem.read, hcontent]⟩

/-- In a well-formed file system all that is found is text. -/
theorem isText_of_mem_found (hfs : fs.WellFormed) {path : Path}
    (h : path ∈ found fs base includes ignores) : path.IsText := by
  obtain ⟨⟨root, hroot, hmet⟩, -⟩ := mem_found.mp h
  obtain ⟨names, hnames, rfl⟩ := hfs.mem_walk hmet
  exact Path.isText_extend (isText_of_mem_roots hfs (RawText.isText_ofString base) hroot) hnames

/-- A file that can be read is no tree only on account of what it holds. -/
theorem error_of_load {path : Path} {content : RawText} (hread : fs.read path = .ok content)
    {name : String} {error : FileError}
    (h : Tree.load fs path = .error (.unreadable name error)) : error = .notText := by
  have hsource : fs.readText path =
      (RawText.text? content).elim (.error .notText) Except.ok := by
    rw [FileSystem.readText, hread]
    simp only [bind, Except.bind]
    cases RawText.text? content <;> rfl
  rw [Tree.load, hsource] at h
  cases htext : RawText.text? content with
  | none =>
    rw [htext] at h
    cases h
    rfl
  | some source =>
    rw [htext] at h
    change (Tree.parse source).mapError _ = _ at h
    cases hparse : Tree.parse source with
    | error e => rw [hparse] at h; cases h
    | ok root => rw [hparse] at h; cases h

/-- The files that a scan gives are those that it found, each with a text of its own, just when all
paths that it found are text. Such a path is given as it is, its file can be read, and no template
is given up but for what the file holds. All paths are text if all names in the file system are. -/
theorem files_name_found_iff :
    (((∀ file ∈ (scan fs base includes ignores).files,
          .ofString file ∈ found fs base includes ignores) ∧
        ∀ p ∈ found fs base includes ignores, ∀ q ∈ found fs base includes ignores,
          p.lossy = q.lossy → p = q) ↔
      ∀ path ∈ found fs base includes ignores, path.IsText) ∧
    (∀ path ∈ found fs base includes ignores, path.IsText →
      path.lossy ∈ (scan fs base includes ignores).files ∧ .ofString path.lossy = path ∧
      (∃ content, fs.read (.ofString path.lossy) = .ok content) ∧
      ∀ name error, Tree.load fs (.ofString path.lossy) = .error (.unreadable name error) →
        error = .notText) ∧
    (fs.WellFormed → ∀ path ∈ found fs base includes ignores, path.IsText) := by
  refine ⟨⟨?_, ?_⟩, ?_, fun hfs path => isText_of_mem_found hfs⟩
  · rintro ⟨hnamed, hapart⟩ path hpath
    have hagain := hnamed path.lossy (mem_files.mpr ⟨path, hpath, rfl⟩)
    have heq := hapart _ hagain path hpath (RawText.lossy_ofString path.lossy)
    rw [← heq]
    exact RawText.isText_ofString path.lossy
  · intro htext
    refine ⟨fun file hfile => ?_, fun p hp q hq heq => ?_⟩
    · obtain ⟨path, hpath, rfl⟩ := mem_files.mp hfile
      rwa [(htext path hpath).ofString_lossy]
    · rw [← (htext p hp).ofString_lossy, heq, (htext q hq).ofString_lossy]
  · intro path hpath htext
    obtain ⟨content, hread⟩ := read_of_mem_found hpath
    rw [htext.ofString_lossy]
    exact ⟨mem_files.mpr ⟨path, hpath, rfl⟩, rfl, ⟨content, hread⟩,
      fun name error h => error_of_load hread h⟩

/-! ## A name that is not text -/

/-- Templates in two directories with names that are not text, and in one whose name is. -/
def strays : FileSystem where
  root := .directory [(.ofString "templates", .directory
    [([.stray [0xFF]], .directory [(.ofString "page.ast.json", .file [])]),
      ([.stray [0xFE]], .directory [(.ofString "page.ast.json", .file [])])]),
    (.ofString "mails", .directory [(.ofString "welcome.ast.json", .file [])])]

/-- Whatever else there is, a file whose path is text is given by its path, and it is read. -/
theorem welcome_read :
    "./mails/welcome.ast.json" ∈ (scan strays "." ["mails", "templates"] []).files ∧
      ∃ content, strays.read (.ofString "./mails/welcome.ast.json") = .ok content := by
  have htext : RawText.IsText (.ofString "./mails/welcome.ast.json") := RawText.isText_ofString _
  have hfound : .ofString "./mails/welcome.ast.json" ∈
      found strays "." ["mails", "templates"] [] := by decide
  obtain ⟨hfile, -, hread, -⟩ := files_name_found_iff.2.1 _ hfound htext
  rw [RawText.lossy_ofString] at hfile hread
  exact ⟨hfile, hread⟩

/-- The two others are given as one file, which does not exist. -/
theorem file_lost :
    found strays "." ["templates"] [] =
        [Path.extend (.ofString "./templates") [[.stray [0xFF]], .ofString "page.ast.json"],
          Path.extend (.ofString "./templates") [[.stray [0xFE]], .ofString "page.ast.json"]] ∧
      (scan strays "." ["templates"] []).files = ["./templates/\uFFFD/page.ast.json"] ∧
      strays.read (.ofString "./templates/\uFFFD/page.ast.json") = .error .notFound := by
  decide +kernel

end Scan

end MessageHarvest
