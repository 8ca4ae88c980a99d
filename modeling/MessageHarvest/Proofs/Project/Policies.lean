import MessageHarvest.Proofs.Collection
import MessageHarvest.Proofs.Project.Accounts
import Mathlib.Data.List.Basic

/-!
# Extracting under each policy

Two extractions of one project that differ in the policy alone read the same files. A template is
then lost under `FaultPolicy.abort` just when it has a malformed call, and in its place stands the
first of the issues that it has under `FaultPolicy.skip`.

* `Project.prepare_policy`: the policy of the options changes the policy of the extraction and
  nothing else.
* `Project.extractTemplate_cases`: what a file gives under the one policy and under the other.
* `Project.abort_within_skip`: the same for all files of a project together.
-/

namespace MessageHarvest

namespace Project

/-! ## The policy of an extraction -/

/-- The extraction with another policy. -/
def Extraction.under (policy : FaultPolicy) (extraction : Extraction) : Extraction :=
  { extraction with config := { extraction.config with policy } }

theorem prepare_policy (fs : FileSystem) (options : ExtractOptions) (policy : Option FaultPolicy) :
    prepare fs { options with policy } =
      (prepare fs { options with policy := none }).map fun extraction =>
        extraction.under (policy.getD extraction.config.policy) := by
  unfold prepare
  dsimp only
  split
  · rfl
  · cases (loadConfig fs (.ofString _)).mapError SetupError.config with
    | error e => rfl
    | ok loaded => rfl

/-! ## One file under each policy -/

variable {fs : FileSystem} {file : String}

/-- The faults of the calls of a tree, in document order. -/
def faultsOf (root : Tree) : List CallFault :=
  root.nodes.filterMap (Tree.markFault? .markers)

theorem extractTree_skip (file : String) (root : Tree) :
    extractTree .markers .skip file root =
      (some ⟨file, root.nodes.filterMap (Tree.markedMessage? .markers)⟩,
        (faultsOf root).map fun fault => .malformedCall file fault false) := by
  have hready : Collector.ready = Collector.mk true {} := rfl
  rw [extractTree, hready, Collector.collect_skip_eq]
  simp [Collector.messages, faultsOf]

theorem extractTree_abort (file : String) (root : Tree) :
    extractTree .markers .abort file root =
      match faultsOf root with
      | [] => extractTree .markers .skip file root
      | fault :: _ => (none, [.malformedCall file fault true]) := by
  have hready : Collector.ready = Collector.mk true {} := rfl
  have habort := Collector.collect_abort_eq {} .markers root
  rw [← faultsOf] at habort
  cases hfaults : faultsOf root with
  | nil =>
    rw [hfaults] at habort
    rw [extractTree, extractTree, hready, habort]
  | cons fault faults =>
    rw [hfaults] at habort
    rw [extractTree, hready]
    cases hrun : (Collector.mk true {}).collect .abort .markers root with
    | mk collector outcome =>
      rw [hrun] at habort
      obtain rfl : outcome = .error fault := habort
      rfl

/-- A file that is no tree gives the same under both policies, and so does a tree without malformed
calls. Of any other tree the first fault is left. -/
theorem extractTemplate_cases (fs : FileSystem) (file : String) :
    (∃ error, Tree.load fs (.ofString file) = .error error ∧
      ∀ policy, extractTemplate fs .markers policy file =
        (none, [.parseError file error.message])) ∨
    ∃ root messages, Tree.load fs (.ofString file) = .ok root ∧
      extractTemplate fs .markers .skip file = (some ⟨file, messages⟩,
        (faultsOf root).map fun fault => .malformedCall file fault false) ∧
      extractTemplate fs .markers .abort file =
        match faultsOf root with
        | [] => (some ⟨file, messages⟩, [])
        | fault :: _ => (none, [.malformedCall file fault true]) := by
  cases hload : Tree.load fs (.ofString file) with
  | error error => exact .inl ⟨error, rfl, fun policy => by rw [extractTemplate, hload]⟩
  | ok root =>
    refine .inr ⟨root, root.nodes.filterMap (Tree.markedMessage? .markers), rfl, ?_, ?_⟩
    · rw [extractTemplate, hload]
      exact extractTree_skip file root
    · rw [extractTemplate, hload]
      dsimp only
      rw [extractTree_abort, extractTree_skip]
      cases faultsOf root with
      | nil => rfl
      | cons fault faults => rfl

/-! ## The issues of calls -/

namespace Harvest

/-- The issues of the malformed calls of a file. -/
def callIssuesOf (harvest : Harvest) (file : String) : List Issue :=
  (harvest.issuesOf file).filter (·.rule = .malformedCall)

/-- The issues of the files that are no trees. -/
def parseErrors (harvest : Harvest) : List Issue :=
  harvest.issues.filter (·.rule = .parseError)

end Harvest

theorem filter_malformedCalls (file : String) (faults : List CallFault) (aborted : Bool) :
    (faults.map fun fault => Issue.malformedCall file fault aborted).filter
        (·.rule = .malformedCall) =
      faults.map fun fault => .malformedCall file fault aborted := by
  rw [List.filter_eq_self]
  intro issue hissue
  obtain ⟨fault, -, rfl⟩ := List.mem_map.mp hissue
  rfl

theorem filter_parseErrors (file : String) (faults : List CallFault) (aborted : Bool) :
    (faults.map fun fault => Issue.malformedCall file fault aborted).filter
        (·.rule = .parseError) = [] := by
  rw [List.filter_eq_nil_iff]
  intro issue hissue
  obtain ⟨fault, -, rfl⟩ := List.mem_map.mp hissue
  simp [Issue.rule]

/-! ## All files under each policy -/

namespace Extraction

variable {extraction : Extraction} {fault : CallFault} {aborted : Bool}

theorem callIssuesOf_run (hfiles : extraction.files.Nodup) (hfile : file ∈ extraction.files) :
    (extraction.run fs).callIssuesOf file =
      (extractTemplate fs .markers extraction.config.policy file).2.filter
        (·.rule = .malformedCall) := by
  rw [Harvest.callIssuesOf, issuesOf_run hfiles hfile]

/-- A file that is not read has no issues. -/
theorem issuesOf_run_of_not_mem (hfile : file ∉ extraction.files) :
    (extraction.run fs).issuesOf file = [] := by
  rw [Harvest.issuesOf, List.filter_eq_nil_iff]
  intro issue hissue hpath
  exact hfile (of_decide_eq_true hpath ▸ path_mem hissue)

/-- Aborting leaves the templates without malformed calls. -/
theorem templates_abort (hfiles : extraction.files.Nodup) (fs : FileSystem) :
    ((extraction.under .abort).run fs).templates =
      ((extraction.under .skip).run fs).templates.filter fun template =>
        ((extraction.under .skip).run fs).callIssuesOf template.file = [] := by
  rw [templates_run, templates_run, List.filter_flatMap]
  refine List.flatMap_congr fun file hfile => ?_
  have hcalls : ((extraction.under .skip).run fs).callIssuesOf file =
      (extractTemplate fs .markers .skip file).2.filter (·.rule = .malformedCall) :=
    callIssuesOf_run hfiles hfile
  simp only [under] at hcalls ⊢
  rcases extractTemplate_cases fs file with ⟨error, -, h⟩ | ⟨root, messages, -, hskip, habort⟩
  · rw [h, h]
    rfl
  · rw [hskip, filter_malformedCalls] at hcalls
    rw [hskip, habort]
    cases hfaults : faultsOf root with
    | nil => simp [hcalls, hfaults]
    | cons fault faults => simp [hcalls, hfaults]

/-- A file with malformed calls has one issue left, the first that it has under the other policy. -/
theorem issuesOf_abort (hfiles : extraction.files.Nodup) (fs : FileSystem) (file : String) :
    match ((extraction.under .skip).run fs).callIssuesOf file with
    | [] => ((extraction.under .abort).run fs).callIssuesOf file = []
    | first :: _ => ∃ fault, first = .malformedCall file fault false ∧
        ((extraction.under .abort).run fs).issuesOf file = [.malformedCall file fault true] := by
  by_cases hfile : file ∈ extraction.files
  · have hcalls : ∀ policy, ((extraction.under policy).run fs).callIssuesOf file =
        (extractTemplate fs .markers policy file).2.filter (·.rule = .malformedCall) :=
      fun policy => callIssuesOf_run hfiles hfile
    have hissues : ((extraction.under .abort).run fs).issuesOf file =
        (extractTemplate fs .markers .abort file).2 := issuesOf_run hfiles hfile
    rw [hcalls, hcalls, hissues]
    rcases extractTemplate_cases fs file with ⟨error, -, h⟩ | ⟨root, messages, -, hskip, habort⟩
    · rw [h, h]
      rfl
    · rw [hskip, habort, filter_malformedCalls]
      cases faultsOf root with
      | nil => rfl
      | cons fault faults => exact ⟨fault, rfl, rfl⟩
  · have hnone : ∀ policy, ((extraction.under policy).run fs).issuesOf file = [] :=
      fun policy => issuesOf_run_of_not_mem hfile
    simp [Harvest.callIssuesOf, hnone]

theorem parseErrors_abort (extraction : Extraction) (fs : FileSystem) :
    ((extraction.under .abort).run fs).parseErrors =
      ((extraction.under .skip).run fs).parseErrors := by
  rw [Harvest.parseErrors, Harvest.parseErrors, issues_run, issues_run, List.filter_flatMap,
    List.filter_flatMap]
  refine List.flatMap_congr fun file _ => ?_
  simp only [under]
  rcases extractTemplate_cases fs file with ⟨error, -, h⟩ | ⟨root, messages, -, hskip, habort⟩
  · rw [h, h]
  · rw [hskip, habort, filter_parseErrors]
    cases faultsOf root with
    | nil => rfl
    | cons fault faults => rfl

/-- What a malformed call leads to depends on the policy alone. -/
theorem aborted_of_mem (h : Issue.malformedCall file fault aborted ∈ (extraction.run fs).issues) :
    aborted = decide (extraction.config.policy = .abort) := by
  rw [issues_run] at h
  obtain ⟨f, -, hissue⟩ := List.mem_flatMap.mp h
  rcases extractTemplate_cases fs f with ⟨error, -, herror⟩ | ⟨root, messages, -, hskip, habort⟩
  · rw [herror] at hissue
    cases List.mem_singleton.mp hissue
  · cases hpolicy : extraction.config.policy with
    | skip =>
      rw [hpolicy, hskip] at hissue
      obtain ⟨_, -, heq⟩ := List.mem_map.mp hissue
      cases heq
      rfl
    | abort =>
      rw [hpolicy, habort] at hissue
      split at hissue
      · cases hissue
      · cases List.mem_singleton.mp hissue
        rfl

end Extraction

/-- Where a project cannot be set up, the policy makes no difference. Elsewhere the same files are
read. Those templates are lost by aborting that have a malformed call; in place of their issues,
which come in the order of the calls, stands the first of them. Files that are no trees are reported
alike. There are warnings only under the one policy, and calls that ended something only under the
other. -/
theorem abort_within_skip (fs : FileSystem) (options : ExtractOptions) :
    (∃ error, ∀ policy, prepare fs { options with policy } = .error error) ∨
    ∃ extraction : Extraction,
      (∀ policy, prepare fs { options with policy } =
        .ok (extraction.under (policy.getD extraction.config.policy))) ∧
      let skip := (extraction.under .skip).run fs
      let abort := (extraction.under .abort).run fs
      abort.templates = skip.templates.filter (skip.callIssuesOf ·.file = []) ∧
      abort.parseErrors = skip.parseErrors ∧
      (∀ file, match skip.callIssuesOf file with
        | [] => abort.callIssuesOf file = []
        | first :: _ => ∃ fault, first = .malformedCall file fault false ∧
            abort.issuesOf file = [.malformedCall file fault true]) ∧
      (∀ file ∈ extraction.files, ∀ root, Tree.load fs (.ofString file) = .ok root →
        skip.issuesOf file = (root.nodes.filterMap (Tree.markFault? .markers)).map
          fun fault => .malformedCall file fault false) ∧
      (∀ issue ∈ abort.issues, issue.severity ≠ .warning) ∧
      (∀ issue ∈ skip.issues, ∀ file fault, issue ≠ .malformedCall file fault true) := by
  -- The policy of the command is put in last, so the project is set up without it.
  cases hprepare : prepare fs { options with policy := none } with
  | error error =>
    refine .inl ⟨error, fun policy => ?_⟩
    rw [prepare_policy, hprepare]
    rfl
  | ok extraction =>
    have hfiles : extraction.files.Nodup := (prepare_files hprepare).imp String.ne_of_lt
    refine .inr ⟨extraction, fun policy => ?_, Extraction.templates_abort hfiles fs,
      Extraction.parseErrors_abort extraction fs, Extraction.issuesOf_abort hfiles fs, ?_, ?_, ?_⟩
    · rw [prepare_policy, hprepare]
      rfl
    · intro file hfile root hload
      have hissues : ((extraction.under .skip).run fs).issuesOf file =
          (extractTemplate fs .markers .skip file).2 := Extraction.issuesOf_run hfiles hfile
      rw [hissues, extractTemplate, hload]
      exact congrArg Prod.snd (extractTree_skip file root)
    · intro issue hissue hwarning
      cases issue with
      | parseError file reason => cases hwarning
      | malformedCall file fault aborted =>
        obtain rfl := Extraction.aborted_of_mem hissue
        cases hwarning
    · rintro issue hissue file fault rfl
      cases Extraction.aborted_of_mem hissue

/-- A template with two malformed calls. Its nodes are written as lists. -/
def slips : FileSystem where
  root := .directory [(.ofString "page.ast.json", .file (.ofString
    ("[\"other\",\"page\",[[\"function_call\",\"_\",[],2]," ++
      "[\"function_call\",\"_n\",[],3]],1]")))]

/-- By aborting it is lost, and of its issues the first is left. -/
example :
    let extraction : Extraction := ⟨{}, ["page.ast.json"]⟩
    (extraction.under .skip).run slips =
        ⟨[⟨"page.ast.json", []⟩],
          [.malformedCall "page.ast.json" ⟨.missingArgument, "_", 2⟩ false,
            .malformedCall "page.ast.json" ⟨.missingArgument, "_n", 3⟩ false]⟩ ∧
      (extraction.under .abort).run slips =
        ⟨[], [.malformedCall "page.ast.json" ⟨.missingArgument, "_", 2⟩ true]⟩ := by
  decide +kernel

end Project

end MessageHarvest
