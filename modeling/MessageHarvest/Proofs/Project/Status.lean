import MessageHarvest.Proofs.Outcome
import MessageHarvest.Proofs.Project.Policies
import MessageHarvest.Proofs.Project.Setup

/-!
# How an extraction ends

The exit code tells three ends of an extraction apart: it did not begin, it came upon something that
is not as it should be, or there was nothing to tell. What that was may lie anywhere in the tree of
any file. Neither the policy nor the form of the report has a say in the code.

* `Tree.IsMalformed` says which calls are malformed, and `Project.Faulty` which files are not as
  they should be. `Project.issues_extractTemplate_eq_nil_iff`: under both policies it is just these
  files that have issues.
* `Program.code_run_extract`: the code of an extraction from its issues.
* `Program.code_extract_iff`: the code of an extraction from the files of the project.
-/

namespace MessageHarvest

/-! ## Malformed calls -/

namespace Tree

/-- A call to a marker whose arguments do not begin with a string. -/
inductive IsMalformed : Tree → Prop where
  | call {name : String} {arguments : List Tree} {line : UInt64}
      (marker : name ∈ ["_", "__", "_n", "__n"])
      (noString : ∀ text l rest, arguments ≠ literal (.string text) l :: rest) :
      IsMalformed (call name arguments line)

theorem isMalformed_call {name : String} {arguments : List Tree} {line : UInt64} :
    (call name arguments line).IsMalformed ↔
      name ∈ ["_", "__", "_n", "__n"] ∧
        ∀ text l rest, arguments ≠ literal (.string text) l :: rest := by
  constructor
  · intro h
    cases h with
    | call marker noString => exact ⟨marker, noString⟩
  · rintro ⟨marker, noString⟩
    exact .call marker noString

theorem lookup_markers_ne_none {name : String} (h : name ∈ ["_", "__", "_n", "__n"]) :
    Registry.markers.lookup name ≠ none := by
  revert name
  decide

/-- Where all markers are registered, the faults are those of the malformed calls. -/
theorem markFault?_eq_none_iff {node : Tree} :
    node.markFault? .markers = none ↔ ¬ node.IsMalformed := by
  cases node with
  | literal value line => exact ⟨fun _ => nofun, fun _ => rfl⟩
  | other name children line => exact ⟨fun _ => nofun, fun _ => rfl⟩
  | call name arguments line =>
    rw [isMalformed_call]
    by_cases hname : name ∈ ["_", "__", "_n", "__n"]
    · have hmark : (call name arguments line).isMark = true := List.contains_iff_mem.mpr hname
      rw [markFault?, if_pos hmark, if_neg (lookup_markers_ne_none hname)]
      rcases arguments with _ | ⟨⟨_, _, _⟩ | ⟨_ | _ | _ | _, _⟩ | ⟨_, _, _⟩, rest⟩ <;>
        simp [hname, literal?, Literal.text?]
    · have hmark : ¬ (call name arguments line).isMark = true :=
        fun h => hname (List.contains_iff_mem.mp h)
      rw [markFault?, if_neg hmark]
      exact ⟨fun _ h => hname h.1, fun _ => rfl⟩

end Tree

/-! ## Files with issues -/

namespace Project

/-- A file that is no tree, or whose tree has a malformed call at any depth. -/
inductive Faulty (fs : FileSystem) (file : String) : Prop where
  | unreadable {error : LoadError} (failed : Tree.load fs (.ofString file) = .error error)
  | malformed {root node : Tree} (loaded : Tree.load fs (.ofString file) = .ok root)
      (mem : node ∈ root.nodes) (malformed : node.IsMalformed)

variable {fs : FileSystem} {file : String}

theorem faultsOf_eq_nil_iff {root : Tree} :
    faultsOf root = [] ↔ ∀ node ∈ root.nodes, ¬ node.IsMalformed := by
  rw [faultsOf, List.filterMap_eq_nil_iff]
  simp only [Tree.markFault?_eq_none_iff]

theorem not_faulty_iff_of_load {root : Tree} (hload : Tree.load fs (.ofString file) = .ok root) :
    ¬ Faulty fs file ↔ ∀ node ∈ root.nodes, ¬ node.IsMalformed := by
  constructor
  · intro hsound node hmem hmalformed
    exact hsound (.malformed hload hmem hmalformed)
  · rintro hnodes (⟨failed⟩ | ⟨loaded, mem, malformed⟩)
    · rw [hload] at failed
      cases failed
    · rw [hload] at loaded
      cases loaded
      exact hnodes _ mem malformed

/-- The files that have issues are the same under both policies, though not their issues. -/
theorem issues_extractTemplate_eq_nil_iff {policy : FaultPolicy} :
    (extractTemplate fs .markers policy file).2 = [] ↔ ¬ Faulty fs file := by
  rcases extractTemplate_cases fs file with
    ⟨error, hload, h⟩ | ⟨root, messages, hload, hskip, habort⟩
  · rw [h]
    exact ⟨nofun, fun hsound => absurd (.unreadable hload) hsound⟩
  · rw [not_faulty_iff_of_load hload, ← faultsOf_eq_nil_iff]
    cases policy with
    | skip => rw [hskip, List.map_eq_nil_iff]
    | abort =>
      rw [habort]
      cases faultsOf root with
      | nil => exact ⟨fun _ => rfl, fun _ => rfl⟩
      | cons fault faults => exact ⟨nofun, nofun⟩

theorem Extraction.issues_run_eq_nil_iff {extraction : Extraction} :
    (extraction.run fs).issues = [] ↔ ∀ file ∈ extraction.files, ¬ Faulty fs file := by
  rw [issues_run, List.flatMap_eq_nil_iff]
  simp only [issues_extractTemplate_eq_nil_iff]

end Project

/-! ## Exit codes -/

namespace Program

open Project

variable {fs : FileSystem} {colors : Bool} {arguments : List RawText} {options : ExtractOptions}

/-- The code of an extraction says whether it began and whether it has issues. -/
theorem code_run_extract (hparse : CommandLine.parse arguments = .ok (some (.extract options))) :
    (run fs colors arguments).1.code =
      match prepare fs options with
      | .error _ => 2
      | .ok extraction => if (extraction.run fs).issues = [] then 0 else 1 := by
  cases hprepare : prepare fs options with
  | error e =>
    rw [run, hparse]
    dsimp only [runCommand, perform]
    rw [performExtract, hprepare]
    rfl
  | ok extraction =>
    rw [run_extract hparse hprepare]
    exact Outcome.code_finish rfl _

/-- An extraction ends with 2 if it does not begin. -/
theorem code_eq_two_iff (hparse : CommandLine.parse arguments = .ok (some (.extract options))) :
    (run fs colors arguments).1.code = 2 ↔ ∃ error, prepare fs options = .error error := by
  rw [code_run_extract hparse]
  cases prepare fs options with
  | error e => exact ⟨fun _ => ⟨e, rfl⟩, fun _ => rfl⟩
  | ok extraction =>
    refine ⟨fun h => ?_, nofun⟩
    dsimp only at h
    split at h <;> cases h

/-- It ends with 1 if a file is not as it should be. -/
theorem code_eq_one_iff (hparse : CommandLine.parse arguments = .ok (some (.extract options))) :
    (run fs colors arguments).1.code = 1 ↔ ∃ extraction, prepare fs options = .ok extraction ∧
      ∃ file ∈ extraction.files, Faulty fs file := by
  rw [code_run_extract hparse]
  cases prepare fs options with
  | error e => exact ⟨nofun, nofun⟩
  | ok extraction =>
    have hissues : (extraction.run fs).issues ≠ [] ↔ ∃ file ∈ extraction.files, Faulty fs file := by
      rw [Ne, Extraction.issues_run_eq_nil_iff]
      simp only [not_forall, not_not, exists_prop]
    simp [← hissues]

/-- It ends with 0 if all files are as they should be. -/
theorem code_eq_zero_iff (hparse : CommandLine.parse arguments = .ok (some (.extract options))) :
    (run fs colors arguments).1.code = 0 ↔ ∃ extraction, prepare fs options = .ok extraction ∧
      ∀ file ∈ extraction.files, ¬ Faulty fs file := by
  rw [code_run_extract hparse]
  cases prepare fs options with
  | error e => exact ⟨nofun, nofun⟩
  | ok extraction => simp [← Extraction.issues_run_eq_nil_iff]

/-- A project is set up in the same way, with the same files, whatever the policy and the form of
the report. -/
theorem prepare_with (fs : FileSystem) (options : ExtractOptions) (format : ReportFormat)
    (policy : Option FaultPolicy) :
    (prepare fs { options with format, policy }).map Extraction.files =
      (prepare fs options).map Extraction.files := by
  have hformat : prepare fs { options with format, policy } = prepare fs { options with policy } :=
    rfl
  have hpolicy : prepare fs options = prepare fs { options with policy := options.policy } := rfl
  rw [hformat, hpolicy, prepare_policy, prepare_policy fs options options.policy]
  cases prepare fs { options with policy := none } with
  | error e => rfl
  | ok extraction => rfl

/-- Two extractions that read the same files end with the same code. -/
theorem code_eq_of_files {arguments' : List RawText} {options' : ExtractOptions} {colors' : Bool}
    (hparse : CommandLine.parse arguments = .ok (some (.extract options)))
    (hparse' : CommandLine.parse arguments' = .ok (some (.extract options')))
    (hfiles : (prepare fs options').map Extraction.files =
      (prepare fs options).map Extraction.files) :
    (run fs colors' arguments').1.code = (run fs colors arguments).1.code := by
  rw [code_run_extract hparse, code_run_extract hparse']
  cases hprepare : prepare fs options with
  | error e =>
    cases hprepare' : prepare fs options' with
    | error e' => rfl
    | ok extraction' =>
      rw [hprepare, hprepare'] at hfiles
      cases hfiles
  | ok extraction =>
    cases hprepare' : prepare fs options' with
    | error e' =>
      rw [hprepare, hprepare'] at hfiles
      cases hfiles
    | ok extraction' =>
      rw [hprepare, hprepare'] at hfiles
      have hsame : extraction'.files = extraction.files := Except.ok.inj hfiles
      refine if_congr ?_ rfl rfl
      rw [Extraction.issues_run_eq_nil_iff, Extraction.issues_run_eq_nil_iff, hsame]

/-- The code is 2 if the extraction does not begin, which is so just when there is a nearest
configuration file and it cannot be used. It is 1 if a file that was found is no tree or has a
malformed call anywhere in its tree, and else it is 0. Another form of report and another policy, as
also colours or none, leave it as it is. -/
theorem code_extract_iff {base : String}
    (hparse : CommandLine.parse arguments = .ok (some (.extract options)))
    (hbase : RawText.text? (options.sourceRoot.getD Path.here) = some base) :
    let code := (run fs colors arguments).1.code
    (code = 2 ↔ ∃ error, prepare fs options = .error error) ∧
    (code = 2 ↔
      ∃ file, NearestConfig fs (.ofString base) file ∧ ∀ config, ¬ Usable fs file config) ∧
    (code = 1 ↔ ∃ extraction, prepare fs options = .ok extraction ∧
      ∃ file ∈ extraction.files, Faulty fs file) ∧
    (code = 0 ↔ ∃ extraction, prepare fs options = .ok extraction ∧
      ∀ file ∈ extraction.files, ¬ Faulty fs file) ∧
    ∀ arguments' colors' format policy,
      CommandLine.parse arguments' = .ok (some (.extract { options with format, policy })) →
      (run fs colors' arguments').1.code = code := by
  intro code
  have hbegun : code = 2 ↔ ∃ error, prepare fs options = .error error := code_eq_two_iff hparse
  refine ⟨hbegun, hbegun.trans ((prepare_eq_error_iff hbase).trans loadConfig_eq_error_iff),
    code_eq_one_iff hparse, code_eq_zero_iff hparse, ?_⟩
  intro arguments' colors' format policy hparse'
  exact code_eq_of_files hparse hparse' (prepare_with fs options format policy)

/-- A call without arguments is told by the code, whatever the report looks like and even if the
extraction of its template stops there. -/
theorem code_extract_drafts :
    (run drafts false [.ofString "extract"]).1.code = 1 ∧
      (run drafts true [.ofString "extract", .ofString "--format=json", .ofString "--on-error",
        .ofString "abort"]).1.code = 1 := by
  have hparse : CommandLine.parse [.ofString "extract"] = .ok (some (.extract {})) := by
    decide
  have hparse' : CommandLine.parse [.ofString "extract", .ofString "--format=json",
      .ofString "--on-error", .ofString "abort"] =
        .ok (some (.extract { format := .json, policy := some .abort })) := by decide
  have hload : Tree.load drafts (.ofString "./templates/page.ast.json") = .ok (.call "_" [] 2) := by
    decide +kernel
  have hmalformed : (Tree.call "_" [] 2).IsMalformed :=
    Tree.isMalformed_call.mpr ⟨by decide, fun _ _ _ h => nomatch h⟩
  have hbase : RawText.text? Path.here = some "." := by decide
  obtain ⟨-, -, hone, -, hsame⟩ := @code_extract_iff drafts false _ _ _ hparse hbase
  have hcode : (run drafts false [.ofString "extract"]).1.code = 1 := by
    refine hone.mpr ⟨_, prepare_drafts, "./templates/page.ast.json", by decide, ?_⟩
    exact .malformed hload List.mem_cons_self hmalformed
  exact ⟨hcode, (hsame _ true .json (some .abort) hparse').trans hcode⟩

end Program

end MessageHarvest
