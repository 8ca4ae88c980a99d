import MessageHarvest.Program
import MessageHarvest.Proofs.Scan.Doublets

/-!
# Every file is accounted for

A run reads each file of an extraction on its own and puts the results together. Nothing is lost on
the way, and nothing comes from elsewhere.

* `Project.Account` is what may become of one file: a template with the warnings of its pass, or one
  error and no template.
* `Project.Extraction.account`: a run keeps such an account of each file.
* `Project.run_accounts`: each file that was found gives either a template or an error, so the two
  together are as many as the files.
-/

namespace MessageHarvest

namespace Project

/-! ## What becomes of one file -/

/-- The templates and issues that a file may lead to under the policy. -/
inductive Account (fs : FileSystem) (policy : FaultPolicy) (file : String) :
    List Template → List Issue → Prop where
  | passed {root : Tree} {collector : Collector} {report : TraversalReport}
      (loaded : Tree.load fs (.ofString file) = .ok root)
      (pass : Collector.ready.collect policy .markers root = (collector, .ok report)) :
      Account fs policy file [⟨file, collector.messages.toList⟩]
        (report.faults.toList.map fun fault => .malformedCall file fault false)
  | halted {root : Tree} {collector : Collector} {fault : CallFault}
      (loaded : Tree.load fs (.ofString file) = .ok root)
      (pass : Collector.ready.collect policy .markers root = (collector, .error fault)) :
      Account fs policy file [] [.malformedCall file fault true]
  | unreadable {error : LoadError} (failed : Tree.load fs (.ofString file) = .error error) :
      Account fs policy file [] [.parseError file error.message]

variable {fs : FileSystem} {policy : FaultPolicy} {file : String}

theorem account_extractTemplate (fs : FileSystem) (policy : FaultPolicy) (file : String) :
    Account fs policy file (extractTemplate fs .markers policy file).1.toList
      (extractTemplate fs .markers policy file).2 := by
  unfold extractTemplate
  cases hload : Tree.load fs (.ofString file) with
  | error error => exact .unreadable hload
  | ok root =>
    simp only [extractTree]
    cases hpass : Collector.ready.collect policy .markers root with
    | mk collector outcome =>
      cases outcome with
      | error fault => exact .halted hload hpass
      | ok report => exact .passed hload hpass

namespace Account

variable {templates : List Template} {issues : List Issue}

theorem file_eq (h : Account fs policy file templates issues) {template : Template}
    (ht : template ∈ templates) : template.file = file := by
  cases h with
  | passed => rw [List.mem_singleton.mp ht]
  | halted => cases ht
  | unreadable => cases ht

theorem path_eq (h : Account fs policy file templates issues) {issue : Issue}
    (hi : issue ∈ issues) : issue.location.path = file := by
  cases h with
  | passed =>
    obtain ⟨fault, -, rfl⟩ := List.mem_map.mp hi
    rfl
  | halted =>
    rw [List.mem_singleton.mp hi]
    rfl
  | unreadable =>
    rw [List.mem_singleton.mp hi]
    rfl

/-- A file gives one template and no error, or one error, no other issue and no template. -/
theorem template_or_error (h : Account fs policy file templates issues) :
    (∃ template, templates = [template] ∧ ∀ issue ∈ issues, issue.severity = .warning) ∨
      (templates = [] ∧ ∃ issue, issues = [issue] ∧ issue.severity = .error) := by
  cases h with
  | passed =>
    refine .inl ⟨_, rfl, fun issue hissue => ?_⟩
    obtain ⟨fault, -, rfl⟩ := List.mem_map.mp hissue
    rfl
  | halted => exact .inr ⟨rfl, _, rfl, rfl⟩
  | unreadable => exact .inr ⟨rfl, _, rfl, rfl⟩

theorem count_eq_one (h : Account fs policy file templates issues) :
    templates.length + issues.countP (·.severity = .error) = 1 := by
  rcases h.template_or_error with ⟨template, rfl, hwarnings⟩ | ⟨rfl, issue, rfl, herror⟩
  · have hnone : issues.countP (·.severity = .error) = 0 := by
      rw [List.countP_eq_zero]
      intro issue hissue
      simp [hwarnings issue hissue]
    rw [hnone, List.length_singleton]
  · simp [herror]

end Account

/-! ## What becomes of all files -/

/-- Parts that are kept with the keys they were made from can be told apart by these keys. -/
theorem filter_flatMap_eq {α β : Type} [DecidableEq α] {key : β → α} {f : α → List β}
    (hkey : ∀ a, ∀ b ∈ f a, key b = a) {a : α} {l : List α} (hl : l.Nodup) (ha : a ∈ l) :
    (l.flatMap f).filter (key · = a) = f a := by
  have hother : ∀ c, c ≠ a → (f c).filter (key · = a) = [] := by
    intro c hc
    rw [List.filter_eq_nil_iff]
    intro b hb
    simpa [hkey c b hb] using hc
  have hsame : (f a).filter (key · = a) = f a := by
    rw [List.filter_eq_self]
    intro b hb
    simpa using hkey a b hb
  obtain ⟨before, later, rfl⟩ := List.append_of_mem ha
  obtain ⟨-, hlater, hdisjoint⟩ := List.nodup_append.mp hl
  have hb : ∀ c ∈ before, (f c).filter (key · = a) = [] := fun c hc =>
    hother c (hdisjoint c hc a List.mem_cons_self)
  have hc : ∀ c ∈ later, (f c).filter (key · = a) = [] := fun c hc =>
    hother c fun h => (List.nodup_cons.mp hlater).1 (h ▸ hc)
  rw [List.filter_flatMap, List.flatMap_append, List.flatMap_cons, hsame,
    List.flatMap_eq_nil_iff.mpr hb, List.flatMap_eq_nil_iff.mpr hc]
  simp

namespace Harvest

/-- The templates that come from a file. -/
def templatesOf (harvest : Harvest) (file : String) : List Template :=
  harvest.templates.filter (·.file = file)

/-- The issues that are about a file. -/
def issuesOf (harvest : Harvest) (file : String) : List Issue :=
  harvest.issues.filter (·.location.path = file)

end Harvest

namespace Extraction

variable {extraction : Extraction}

theorem templates_run (extraction : Extraction) (fs : FileSystem) :
    (extraction.run fs).templates = extraction.files.flatMap fun file =>
      (extractTemplate fs .markers extraction.config.policy file).1.toList := by
  simp only [run, List.filterMap_map]
  induction extraction.files with
  | nil => rfl
  | cons file files ih =>
    rw [List.filterMap_cons, List.flatMap_cons, ← ih]
    cases h : (extractTemplate fs .markers extraction.config.policy file).1 <;>
      simp [Function.comp_apply, h]

theorem issues_run (extraction : Extraction) (fs : FileSystem) :
    (extraction.run fs).issues = extraction.files.flatMap fun file =>
      (extractTemplate fs .markers extraction.config.policy file).2 := by
  simp only [run, List.flatMap_map]

theorem templatesOf_run (hfiles : extraction.files.Nodup) (hfile : file ∈ extraction.files) :
    (extraction.run fs).templatesOf file =
      (extractTemplate fs .markers extraction.config.policy file).1.toList := by
  rw [Harvest.templatesOf, templates_run]
  exact filter_flatMap_eq (fun file _ ht => (account_extractTemplate fs _ file).file_eq ht)
    hfiles hfile

theorem issuesOf_run (hfiles : extraction.files.Nodup) (hfile : file ∈ extraction.files) :
    (extraction.run fs).issuesOf file =
      (extractTemplate fs .markers extraction.config.policy file).2 := by
  rw [Harvest.issuesOf, issues_run]
  exact filter_flatMap_eq (fun file _ hi => (account_extractTemplate fs _ file).path_eq hi)
    hfiles hfile

/-- A run keeps account of each file. -/
theorem account (hfiles : extraction.files.Nodup) (hfile : file ∈ extraction.files) :
    Account fs extraction.config.policy file ((extraction.run fs).templatesOf file)
      ((extraction.run fs).issuesOf file) := by
  rw [templatesOf_run hfiles hfile, issuesOf_run hfiles hfile]
  exact account_extractTemplate fs _ file

theorem file_mem {template : Template} (h : template ∈ (extraction.run fs).templates) :
    template.file ∈ extraction.files := by
  rw [templates_run] at h
  obtain ⟨file, hfile, ht⟩ := List.mem_flatMap.mp h
  rw [(account_extractTemplate fs _ file).file_eq ht]
  exact hfile

theorem path_mem {issue : Issue} (h : issue ∈ (extraction.run fs).issues) :
    issue.location.path ∈ extraction.files := by
  rw [issues_run] at h
  obtain ⟨file, hfile, hi⟩ := List.mem_flatMap.mp h
  rw [(account_extractTemplate fs _ file).path_eq hi]
  exact hfile

theorem count_run (extraction : Extraction) (fs : FileSystem) :
    (extraction.run fs).templates.length +
      (extraction.run fs).issues.countP (·.severity = .error) = extraction.files.length := by
  rw [templates_run, issues_run]
  induction extraction.files with
  | nil => rfl
  | cons file files ih =>
    have hfile := (account_extractTemplate fs extraction.config.policy file).count_eq_one
    rw [List.flatMap_cons, List.flatMap_cons, List.length_append, List.countP_append,
      List.length_cons]
    omega

end Extraction

/-! ## The files of an extraction -/

theorem prepare_files {options : ExtractOptions} {extraction : Extraction}
    (h : prepare fs options = .ok extraction) : extraction.files.Pairwise (· < ·) := by
  unfold prepare at h
  dsimp only at h
  split at h
  · cases h
  · cases hconfig : (loadConfig fs (.ofString _)).mapError SetupError.config with
    | error e =>
      rw [hconfig] at h
      cases h
    | ok loaded =>
      rw [hconfig] at h
      cases h
      exact Scan.pairwise_inOrder _

theorem pairwise_templates_run {extraction : Extraction}
    (hfiles : extraction.files.Pairwise (· < ·)) :
    (extraction.run fs).templates.Pairwise (·.file < ·.file) := by
  have h := hfiles.sublist (Scan.files_of_run extraction fs)
  exact List.pairwise_map.mp h

theorem performExtract_eq {options : ExtractOptions} {extraction : Extraction}
    (h : prepare fs options = .ok extraction) :
    Program.performExtract fs options =
      .ok (.finish (.extract (extraction.run fs).templates extraction.files.length options.format)
        (extraction.run fs).issues) := by
  rw [Program.performExtract, h]
  rfl

/-- A run of an extraction reports its outcome and leaves the files as they are. -/
theorem run_extract {colors : Bool} {arguments : List RawText} {options : ExtractOptions}
    {extraction : Extraction} (hparse : CommandLine.parse arguments = .ok (some (.extract options)))
    (h : prepare fs options = .ok extraction) :
    let outcome := Outcome.finish
      (.extract (extraction.run fs).templates extraction.files.length options.format)
      (extraction.run fs).issues
    Program.run fs colors arguments =
      (⟨outcome.status.code, Report.streams colors outcome⟩, fs) := by
  rw [Program.run, hparse]
  dsimp only [Program.runCommand, Program.perform]
  rw [performExtract_eq h]
  rfl

/-- Each file that was found gives one template and no error, or one error, no other issue and no
template; what it gives is what a pass over its tree gives. There is nothing from other files, the
templates are in the order of their files, and the errors that are counted make up for the templates
that are missing. -/
theorem run_accounts {options : ExtractOptions} {extraction : Extraction}
    (h : prepare fs options = .ok extraction) :
    let harvest := extraction.run fs
    (∀ file ∈ extraction.files,
      Account fs extraction.config.policy file (harvest.templatesOf file)
          (harvest.issuesOf file) ∧
        ((∃ template, harvest.templatesOf file = [template] ∧
            ∀ issue ∈ harvest.issuesOf file, issue.severity = .warning) ∨
          (harvest.templatesOf file = [] ∧
            ∃ issue, harvest.issuesOf file = [issue] ∧ issue.severity = .error))) ∧
      (∀ template ∈ harvest.templates, template.file ∈ extraction.files) ∧
      (∀ issue ∈ harvest.issues, issue.location.path ∈ extraction.files) ∧
      harvest.templates.Pairwise (·.file < ·.file) ∧
      extraction.files.length =
        harvest.templates.length + harvest.issues.countP (·.severity = .error) ∧
      ∃ outcome, Program.performExtract fs options = .ok outcome ∧
        outcome.summary = .extract harvest.templates extraction.files.length options.format ∧
        outcome.errorCount + harvest.templates.length = extraction.files.length := by
  intro harvest
  have hfiles := prepare_files h
  have hnodup : extraction.files.Nodup := hfiles.imp String.ne_of_lt
  have hcount := extraction.count_run fs
  refine ⟨?_, fun _ => Extraction.file_mem, fun _ => Extraction.path_mem,
    pairwise_templates_run hfiles, hcount.symm, _, performExtract_eq h, rfl, ?_⟩
  · intro file hfile
    have haccount : Account fs extraction.config.policy file (harvest.templatesOf file)
        (harvest.issuesOf file) := Extraction.account hnodup hfile
    exact ⟨haccount, haccount.template_or_error⟩
  · have herrors : (Outcome.finish (.extract harvest.templates extraction.files.length
        options.format) harvest.issues).errorCount =
          harvest.issues.countP (·.severity = .error) := rfl
    rw [herrors, Nat.add_comm]
    exact hcount

/-- A template with a call that has no argument, and a file that breaks off. -/
def drafts : FileSystem where
  root := .directory [(.ofString "templates", .directory
    [(.ofString "page.ast.json", .file
        (.ofString "\x7b\"kind\":\"function_call\",\"name\":\"_\",\"line\":2\x7d")),
      (.ofString "torn.ast.json", .file (.ofString "["))])]

theorem prepare_drafts : prepare drafts {} =
    .ok ⟨{}, ["./templates/page.ast.json", "./templates/torn.ast.json"]⟩ := by
  have hsorted : ["./templates/page.ast.json", "./templates/torn.ast.json"] =
      Scan.inOrder ["./templates/page.ast.json", "./templates/torn.ast.json"] :=
    Scan.eq_inOrder (by decide) fun _ => Iff.rfl
  rw [hsorted]
  rfl

/-- Of the two files one gives a template and the other an error. -/
theorem run_accounts_drafts :
    prepare drafts {} = .ok ⟨{}, ["./templates/page.ast.json", "./templates/torn.ast.json"]⟩ ∧
      ∃ outcome, Program.performExtract drafts {} = .ok outcome ∧
        outcome.errorCount + (Extraction.run
          ⟨{}, ["./templates/page.ast.json", "./templates/torn.ast.json"]⟩ drafts).templates.length
            = 2 := by
  obtain ⟨-, -, -, -, -, outcome, hperform, -, hcount⟩ := run_accounts prepare_drafts
  exact ⟨prepare_drafts, outcome, hperform, hcount⟩

end Project

end MessageHarvest
