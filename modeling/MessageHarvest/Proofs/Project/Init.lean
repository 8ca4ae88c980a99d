import MessageHarvest.Program
import MessageHarvest.Proofs.Config.Reading
import MessageHarvest.Proofs.FileSystem.Shown
import MessageHarvest.Proofs.Project.Accounts
import MessageHarvest.Proofs.Project.Upward
import MessageHarvest.Proofs.Scan.Added

/-!
# New configuration files

A project without a configuration works with the defaults. The file that is made for it says the
same, and no scan lists it. An extraction ends as it would without the file, unless a template
outside is lost whose path is shown as one behind the new file.

* `Project.Unconfigured`: a project for which a configuration file can be made.
* `Project.Unconfigured.exists_init`: the file is made in the directory of the project, and nothing
  else changes. `Project.loadConfig_defaultText`: what it says.
* `Project.performExtract_added`: an extraction with the same configuration has the same outcome
  when a file is added that is no template.
* `Program.extract_after_init`: what `init` makes, and when an extraction ends after it as before.
* `Program.told_otherwise_after_init`: an extraction that does not.
-/

namespace MessageHarvest

namespace Project

variable {fs fs' : FileSystem}

/-- A project without links that has no configuration file. -/
structure Unconfigured (fs : FileSystem) : Prop where
  linkFree : fs.LinkFree
  working : fs.DirectoryAt fs.working
  absent : fs.entryAt? (configName :: fs.working) = none

/-! ## The file -/

/-- The path of the project's configuration file. -/
def configFile : Path :=
  Path.join Path.here configName

theorem isName_configName : Path.IsName configName := by decide

theorem isTreePath_configName : isTreePath configName = false := by decide

theorem sought_here (fs : FileSystem) : Sought fs Path.here fs.working where
  relative := by decide
  follows := .nil fs.working
  noNul := by decide
  room := by decide

theorem segments_configFile : Path.segments configFile = [Path.here] ++ [configName] := by
  decide

theorem passes_configFile (fs : FileSystem) : fs.Passes fs.working configName configFile [] :=
  ⟨[Path.here], segments_configFile, .nil fs.working⟩

namespace Unconfigured

variable (h : Unconfigured fs)

include h

theorem not_exists_configFile : fs.exists configFile = false := by
  rw [FileSystem.exists_eq_isSome_placeOf?, configFile,
    (sought_here fs).placeOf?_config h.linkFree, h.absent]
  rfl

theorem write_configFile (content : RawText) :
    fs.write configFile content = .ok (fs.put (configName :: fs.working) (.file content)) := by
  have hshort : ¬ FileSystem.nameLimit < configName.byteCount := by decide
  obtain ⟨hnul, hne, hsize⟩ := FileSystem.isFollowable_iff.mp
    (by decide : FileSystem.isFollowable configFile = true)
  obtain ⟨follow, hfollow⟩ := fs.exists_followSteps_eq .writing
  have hresolve : fs.resolve .writing configFile = .ok (.absent fs.working configName) := by
    rw [FileSystem.resolve_eq hnul hne hsize, FileSystem.start_of_relative (by decide),
      hfollow, segments_configFile]
    simp only [List.singleton_append, FileSystem.walkSteps, isName_configName.isStep,
      if_neg isName_configName.ne_up, if_neg hshort, h.absent]
    rfl
  rw [FileSystem.write, hresolve]

/-- A configuration file is made, and nothing else is changed. -/
theorem exists_init : ∃ fs', init fs Path.here = .ok (none, fs') ∧
    fs.Adds fs' fs.working configName (.ofString Config.defaultText) := by
  refine ⟨_, ?_, h.linkFree, h.working, h.working, h.absent, isName_configName,
    by decide, rfl⟩
  rw [init, ← configFile, h.not_exists_configFile, if_neg Bool.false_ne_true, h.write_configFile]
  rfl

/-- Without the file the project has the defaults. -/
theorem loadConfig_here : loadConfig fs Path.here = .ok ({}, false) := by
  have hlevels : (Path.components Path.here).length < Path.here.length + 1 := by decide
  have htrail := (sought_here fs).findConfigWithin_trail h.linkFree hlevels
  have hnone : nearestConfig? fs [fs.working] = none := by
    rw [nearestConfig?, Option.bind_eq_none_iff]
    intro directory hdirectory
    rw [List.mem_singleton.mp (List.mem_of_find?_eq_some hdirectory), h.absent]
    rfl
  have hsteps : Path.steps Path.here = [] := by decide
  rw [hsteps, FileSystem.trail_nil, hnone, Option.map_none, Option.map_eq_none_iff] at htrail
  rw [loadConfig, findConfig, htrail]

/-- Nothing outside is shown as if it were behind the file that is made, if no replacement character
stands in the names of the project's directory and those above. -/
theorem shownApart (hmark : ∀ name ∈ fs.working, .char '\uFFFD' ∉ name) :
    fs.ShownApart fs.working configName := by
  refine FileSystem.shownApart_of_not_mem ?_ hmark
  rintro ⟨entries, hentries⟩
  rw [h.absent] at hentries
  cases hentries

end Unconfigured

/-- With the file it has the defaults from the file. -/
theorem loadConfig_defaultText
    (h : fs.Adds fs' fs.working configName (.ofString Config.defaultText)) :
    fs'.readText configFile = .ok Config.defaultText ∧
      loadConfig fs' Path.here = .ok ({}, true) := by
  have hentry := h.entry_of_passes_nil (passes_configFile fs) (by decide)
  have hread : fs'.readText configFile = .ok Config.defaultText := by
    rw [FileSystem.readText, FileSystem.read, hentry]
    simp only [bind, Except.bind, RawText.text?_ofString]
    rfl
  have hfind : findConfig fs' Path.here = some configFile := by
    rw [findConfig, findConfigWithin, ← configFile]
    exact if_pos (FileSystem.exists_iff.mpr ⟨_, hentry⟩)
  have hparse : Config.parse Config.defaultText = .ok {} := Config.parse_pretty {}
  refine ⟨hread, ?_⟩
  rw [loadConfig, hfind]
  dsimp only
  rw [readConfig, hread]
  simp only [Except.mapError, bind, Except.bind, hparse]
  rfl

/-- It has the defaults either way. -/
theorem Unconfigured.loadConfig_added (h : Unconfigured fs)
    (hadds : fs.Adds fs' fs.working configName (.ofString Config.defaultText)) :
    (loadConfig fs' Path.here).map Prod.fst = (loadConfig fs Path.here).map Prod.fst := by
  rw [(loadConfig_defaultText hadds).2, h.loadConfig_here]
  rfl

/-! ## Extractions when a file is added -/

variable {directory : Place} {name content : RawText} {base : String}

/-- A scan lists what it listed. -/
theorem files_added (h : fs.Adds fs' directory name content) (htree : isTreePath name = false)
    (includes ignores : List String) :
    (scan fs' base includes ignores).files = (scan fs base includes ignores).files := by
  refine Scan.inOrder_congr fun text => ?_
  have hfound : ∀ path, path ∈ Scan.found fs' base includes ignores ↔
      path ∈ Scan.found fs base includes ignores := fun _ => Scan.mem_found_added h htree
  exact List.mem_map.trans
    ((exists_congr fun path => and_congr_left' (hfound path)).trans List.mem_map.symm)

/-- A file of a scan is read as before. -/
theorem load_added (h : fs.Adds fs' directory name content) (htree : isTreePath name = false)
    (hapart : fs.ShownApart directory name) (hmark : .char '\uFFFD' ∉ name)
    {includes ignores : List String} {file : String}
    (hfile : file ∈ (scan fs base includes ignores).files) :
    Tree.load fs' (.ofString file) = Tree.load fs (.ofString file) := by
  obtain ⟨path, hpath, rfl⟩ := Scan.mem_files.mp hfile
  have haccepts := (Scan.mem_found.mp hpath).2
  rw [Scan.accepts, Bool.and_eq_true, Bool.and_eq_true] at haccepts
  obtain ⟨held, hentry⟩ := FileSystem.entry_of_isFile haccepts.1.2
  have hname : path.fileName? ≠ some name := by
    intro hname
    rw [isTreePath_of_fileName? hname h.isName, htree] at haccepts
    exact absurd haccepts.2 Bool.false_ne_true
  have hread : fs'.read (.ofString path.lossy) = fs.read (.ofString path.lossy) :=
    h.read_shown hapart hmark hentry hname
  rw [Tree.load, Tree.load, FileSystem.readText, FileSystem.readText, hread]

theorem Extraction.run_congr {extraction : Extraction}
    (hload : ∀ file ∈ extraction.files,
      Tree.load fs' (.ofString file) = Tree.load fs (.ofString file)) :
    extraction.run fs' = extraction.run fs := by
  have hresults : extraction.files.map (extractTemplate fs' .markers extraction.config.policy) =
      extraction.files.map (extractTemplate fs .markers extraction.config.policy) :=
    List.map_congr_left fun file hfile => by
      rw [extractTemplate, extractTemplate, hload file hfile]
  rw [run, run, hresults]

/-- A project with the same configuration is set up in the same way. -/
theorem prepare_added (h : fs.Adds fs' directory name content) (htree : isTreePath name = false)
    {options : ExtractOptions}
    (hbase : RawText.text? (options.sourceRoot.getD Path.here) = some base)
    (hload : (loadConfig fs' (.ofString base)).map Prod.fst =
      (loadConfig fs (.ofString base)).map Prod.fst) :
    prepare fs' options = prepare fs options := by
  simp only [prepare_eq hbase, files_added h htree]
  generalize loadConfig fs' (.ofString base) = loaded' at hload
  generalize loadConfig fs (.ofString base) = loaded at hload
  cases loaded' with
  | error e' =>
    cases loaded with
    | error e => cases hload; rfl
    | ok loaded => cases hload
  | ok loaded' =>
    cases loaded with
    | error e => cases hload
    | ok loaded =>
      have hsame : loaded'.1 = loaded.1 := Except.ok.inj hload
      simp only [Except.mapError, Except.map, hsame]

/-- An extraction that begins with the same configuration has the same outcome. -/
theorem performExtract_added (h : fs.Adds fs' directory name content)
    (htree : isTreePath name = false) (hapart : fs.ShownApart directory name)
    (hmark : .char '\uFFFD' ∉ name) {options : ExtractOptions}
    (hbase : RawText.text? (options.sourceRoot.getD Path.here) = some base)
    (hload : (loadConfig fs' (.ofString base)).map Prod.fst =
      (loadConfig fs (.ofString base)).map Prod.fst) :
    Program.performExtract fs' options = Program.performExtract fs options := by
  have hprepare := prepare_added h htree hbase hload
  cases hbegins : prepare fs options with
  | error e => rw [Program.performExtract, Program.performExtract, hprepare, hbegins]; rfl
  | ok extraction =>
    rw [hbegins] at hprepare
    have hrun : extraction.run fs' = extraction.run fs := by
      refine Extraction.run_congr fun file hfile => ?_
      rw [prepare_eq hbase] at hbegins
      cases hloaded : loadConfig fs (.ofString base) with
      | error e => rw [hloaded] at hbegins; cases hbegins
      | ok loaded =>
        rw [hloaded] at hbegins
        cases hbegins
        exact load_added h htree hapart hmark hfile
    rw [performExtract_eq hbegins, performExtract_eq hprepare, hrun]

end Project

/-- The report of a file that could not be read says why. -/
theorem Report.reason_of_stdout_eq {file reason reason' : String} {scanned : Nat}
    (h : (streams false (.finish (.extract [] scanned .human) [.parseError file reason])).stdout =
      (streams false (.finish (.extract [] scanned .human) [.parseError file reason'])).stdout) :
    reason = reason' := by
  simpa [streams, human, Outcome.finish, Outcome.problemCount, listing, issues, issue, problems,
    render_plain, plain, styled, severity, Issue.message, Issue.severity, Issue.rule,
    Issue.location, Issue.hint?, toString] using h

namespace Program

open Project

/-! ## Extractions after `init` -/

variable {fs : FileSystem} {colors : Bool} {arguments : List RawText}

theorem run_init (h : Unconfigured fs) (hinit : CommandLine.parse arguments = .ok (some .init)) :
    ∃ fs', run fs colors arguments =
        (⟨0, Report.streams colors (.finish (.init none) [])⟩, fs') ∧
      fs.Adds fs' fs.working configName (.ofString Config.defaultText) := by
  obtain ⟨fs', hmade, hadds⟩ := h.exists_init
  refine ⟨fs', ?_, hadds⟩
  rw [run, hinit]
  dsimp only [runCommand, perform]
  rw [performInit, hmade]
  rfl

/-- `init` makes a configuration file where there is none, with the text of the defaults. From it
the project has the defaults, as it had without it, and scans list what they listed. Every
extraction of the project ends as before, with the same code and the same reports, if nothing
outside is shown as if it were behind the new file; so it is where no replacement character stands
in the names of the project's directory and those above. -/
theorem extract_after_init (h : Unconfigured fs)
    (hinit : CommandLine.parse arguments = .ok (some .init)) :
    ∃ fs', (run fs colors arguments).2 = fs' ∧ (run fs colors arguments).1.code = 0 ∧
      fs'.readText configFile = .ok Config.defaultText ∧
      loadConfig fs' Path.here = .ok ({}, true) ∧ loadConfig fs Path.here = .ok ({}, false) ∧
      (∀ base includes ignores,
        (scan fs' base includes ignores).files = (scan fs base includes ignores).files) ∧
      ((∀ name ∈ fs.working, .char '\uFFFD' ∉ name) → fs.ShownApart fs.working configName) ∧
      (fs.ShownApart fs.working configName → ∀ colors arguments options,
        CommandLine.parse arguments = .ok (some (.extract options)) →
        options.sourceRoot.getD Path.here = Path.here →
        (run fs' colors arguments).1 = (run fs colors arguments).1) := by
  obtain ⟨fs', hrun, hadds⟩ := run_init h hinit
  have hmark : Glyph.char '\uFFFD' ∉ configName := by decide
  -- from here on only the new file matters, not how it was made
  obtain ⟨hread, hloaded'⟩ := loadConfig_defaultText hadds
  refine ⟨fs', by rw [hrun], by rw [hrun], hread, hloaded', h.loadConfig_here,
    fun base includes ignores => files_added hadds isTreePath_configName includes ignores,
    h.shownApart, ?_⟩
  intro hapart colors arguments options hextract hroot
  have hbase : RawText.text? (options.sourceRoot.getD Path.here) = some "." := by
    rw [hroot]
    decide
  have hsame : performExtract fs' options = performExtract fs options :=
    performExtract_added hadds isTreePath_configName hapart hmark hbase (h.loadConfig_added hadds)
  rw [run, run, hextract]
  dsimp only [runCommand, perform]
  rw [hsame]
  cases performExtract fs options with
  | error e => rfl
  | ok outcome => rfl

theorem unconfigured_strays : Unconfigured Scan.strays where
  linkFree := by
    have hpage : (Entry.directory [(.ofString "page.ast.json", .file [])]).LinkFree :=
      .directory (by simpa using .file [])
    have hwelcome : (Entry.directory [(.ofString "welcome.ast.json", .file [])]).LinkFree :=
      .directory (by simpa using .file [])
    refine .directory ?_
    simp only [List.forall_mem_cons]
    refine ⟨.directory ?_, hwelcome, nofun⟩
    simp only [List.forall_mem_cons]
    exact ⟨hpage, hpage, nofun⟩
  working := ⟨_, rfl⟩
  absent := by decide

/-- Not even a pattern for all names at the top of a project makes a difference. -/
theorem extract_after_init_strays :
    (run (run Scan.strays false [.ofString "init"]).2 true
        (["extract", "*", ".*", "--format", "json", "--on-error=abort"].map .ofString)).1 =
      (run Scan.strays true
        (["extract", "*", ".*", "--format", "json", "--on-error=abort"].map .ofString)).1 := by
  obtain ⟨fs', hfs', -, -, -, -, -, happly, hsame⟩ :=
    @extract_after_init Scan.strays false [.ofString "init"] unconfigured_strays (by decide)
  rw [hfs']
  exact hsame (happly nofun) true _
    { paths := [.ofString "*", .ofString ".*"], format := .json, policy := some .abort }
    (by decide) rfl

/-- A project of which the name is a replacement character, beside a directory of which the name is
a stray byte. In that a directory is named like a configuration file, and holds a template. -/
def alike : FileSystem where
  root := .directory [(.ofString "\uFFFD", .directory []),
    ([.stray [0xFF]], .directory
      [(configName, .directory [(.ofString "page.ast.json", .file [])])])]
  working := [.ofString "\uFFFD"]

theorem unconfigured_alike : Unconfigured alike where
  linkFree := by
    have hpage : (Entry.directory [(.ofString "page.ast.json", .file [])]).LinkFree :=
      .directory (by simpa using .file [])
    have hbeside : (Entry.directory
        [(configName, .directory [(.ofString "page.ast.json", .file [])])]).LinkFree :=
      .directory (by simpa using hpage)
    refine .directory ?_
    simp only [List.forall_mem_cons]
    exact ⟨.directory nofun, hbeside, nofun⟩
  working := ⟨_, rfl⟩
  absent := by decide

/-- The path by which the template of `alike` is listed. -/
def alikePage : String :=
  "./../\uFFFD/.gettextscanrc.json/page.ast.json"

/-- The template is looked for behind the new file, and another error is told. -/
theorem told_otherwise_after_init :
    Unconfigured alike ∧ CommandLine.parse [.ofString "init"] = .ok (some .init) ∧
      CommandLine.parse (["extract", ".."].map .ofString) =
        .ok (some (.extract { paths := [.ofString ".."] })) ∧
      (run (run alike false [.ofString "init"]).2 false
          (["extract", ".."].map .ofString)).1.streams.stdout ≠
        (run alike false (["extract", ".."].map .ofString)).1.streams.stdout := by
  have hinit : CommandLine.parse [.ofString "init"] = .ok (some .init) := by decide
  have hextract : CommandLine.parse (["extract", ".."].map .ofString) =
      .ok (some (.extract { paths := [.ofString ".."] })) := by decide
  refine ⟨unconfigured_alike, hinit, hextract, ?_⟩
  obtain ⟨fs', hrun, hadds⟩ := @run_init alike false _ unconfigured_alike hinit
  have hprepare : prepare alike { paths := [.ofString ".."] } =
      .ok ⟨{ includes := [".."] }, [alikePage]⟩ := by decide +kernel
  have hprepare' : prepare fs' { paths := [.ofString ".."] } =
      .ok ⟨{ includes := [".."] }, [alikePage]⟩ := by
    have hbase : RawText.text? (Option.getD none Path.here) = some "." := by decide
    rw [← hprepare]
    exact prepare_added hadds isTreePath_configName hbase
      (unconfigured_alike.loadConfig_added hadds)
  have hbefore : Extraction.run ⟨{ includes := [".."] }, [alikePage]⟩ alike =
      ⟨[], [.parseError alikePage (LoadError.unreadable alikePage .notFound).message]⟩ := by
    decide
  have hafter : Extraction.run ⟨{ includes := [".."] }, [alikePage]⟩ fs' =
      ⟨[], [.parseError alikePage (LoadError.unreadable alikePage .notDirectory).message]⟩ := by
    rw [hadds.eq_put]
    decide
  rw [hrun, run_extract hextract hprepare, run_extract hextract hprepare', hbefore, hafter]
  intro hsame
  exact absurd (Report.reason_of_stdout_eq hsame) (by decide)

end Program

end MessageHarvest
