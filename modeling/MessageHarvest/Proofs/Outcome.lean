import Mathlib.Data.Prod.Lex
import Mathlib.Data.String.Basic
import MessageHarvest.Outcome
import MessageHarvest.Proofs.Sorting

/-!
# How an outcome tells its issues

An outcome has the issues that came up, brought into the order of their places, and counts them. The
order is one of three levels over two kinds of issues; that of the rules decides only between a file
that could not be read and a malformed call on the line 0 of a file of the same path.

* `Issue.place`: what issues are sorted by. `Outcome.comesBefore_eq`: they are compared by nothing
  else.
* `Outcome.problemCount_finish`: no issue is left out of the counts.
* `Outcome.finish_orders_and_counts`: which list the issues become, the counts, and the status.
-/

namespace MessageHarvest

/-- Where an issue stands among others: by its path, then by its line, which is 0 for the file as a
whole, and on one line a malformed call before a file that could not be read. -/
def Issue.place : Issue → String ×ₗ Nat ×ₗ Nat
  | malformedCall file fault _ => toLex (file, toLex (fault.line.toNat, 0))
  | parseError file _ => toLex (file, toLex (0, 1))

theorem Issue.place_eq (i : Issue) :
    i.place = toLex (i.location.path, toLex (i.location.line.toNat, i.rule.rank)) := by
  cases i <;> rfl

namespace Outcome

/-! ## The order -/

theorem comesBefore_eq (a b : Issue) : comesBefore a b = decide (a.place ≤ b.place) := by
  rw [Bool.eq_iff_iff, decide_eq_true_eq, a.place_eq, b.place_eq, Prod.Lex.toLex_le_toLex,
    Prod.Lex.toLex_le_toLex, comesBefore]
  split
  · rename_i hpath
    simp [hpath]
  · rename_i hpath
    rw [not_not] at hpath
    split
    · rename_i hline
      have hline' : a.location.line.toNat ≠ b.location.line.toNat :=
        fun h => hline (UInt64.toNat_inj.mp h)
      simp [hpath, hline', UInt64.lt_iff_toNat_lt]
    · rename_i hline
      rw [not_not] at hline
      simp [hpath, hline]

/-- The issues of an outcome are stably sorted by their places. -/
theorem stablySorted_finish (summary : Summary) (issues : List Issue) :
    StablySorted Issue.place issues (finish summary issues).issues := by
  have hle : comesBefore = fun a b => decide (a.place ≤ b.place) :=
    funext fun a => funext fun b => comesBefore_eq a b
  rw [finish, hle]
  exact .mergeSort Issue.place issues

/-- Issues that are in order stay as they are. -/
theorem finish_issues_eq {issues : List Issue}
    (h : issues.Pairwise fun a b => a.place ≤ b.place) (summary : Summary) :
    (finish summary issues).issues = issues :=
  List.mergeSort_of_pairwise (h.imp fun hab => (comesBefore_eq _ _).trans (decide_eq_true hab))

/-! ## Counts -/

theorem countP_severity (issues : List Issue) :
    issues.countP (·.severity = .error) + issues.countP (·.severity = .warning) =
      issues.length := by
  induction issues with
  | nil => rfl
  | cons issue issues ih =>
    rw [List.countP_cons, List.countP_cons, List.length_cons, ← ih]
    cases issue.severity <;> simp <;> omega

/-- Every issue is counted, as one or the other. -/
theorem problemCount_finish (summary : Summary) (issues : List Issue) :
    (finish summary issues).problemCount =
      issues.length + if summary.isError then 1 else 0 := by
  simp only [problemCount, finish, ← countP_severity issues]
  omega

/-- A command that did what it was to do fails only by its issues. -/
theorem code_finish {summary : Summary} (hsummary : summary.isError = false)
    (issues : List Issue) :
    (finish summary issues).status.code = if issues = [] then 0 else 1 := by
  have hcount : (finish summary issues).problemCount = issues.length := by
    rw [problemCount_finish, hsummary]
    rfl
  rw [status, hcount]
  cases issues <;> rfl

theorem isError_iff {summary : Summary} :
    summary.isError = true ↔ ∃ error, summary = .init (some error) := by
  rcases summary with _ | (_ | error) <;> simp [Summary.isError]

theorem status_finish_eq_success_iff {summary : Summary} {issues : List Issue} :
    (finish summary issues).status = .success ↔
      issues = [] ∧ ∀ error, summary ≠ .init (some error) := by
  have hsummary : (∀ error, summary ≠ .init (some error)) ↔ summary.isError = false := by
    rw [← Bool.not_eq_true, isError_iff, not_exists]
  rw [status_eq_success_iff, problemCount_finish, hsummary, Nat.add_eq_zero_iff,
    List.length_eq_zero_iff]
  cases summary.isError <;> simp

/-- To finish the issues of an outcome again changes neither their order nor the counts. -/
theorem finish_finish (summary : Summary) (issues : List Issue) :
    finish summary (finish summary issues).issues = finish summary issues := by
  have hperm := finish_issues_perm summary issues
  have herrors := hperm.countP_eq (·.severity = .error)
  have hwarnings := hperm.countP_eq (·.severity = .warning)
  have hissues := finish_issues_eq (stablySorted_finish summary issues).pairwise summary
  simp only [finish] at herrors hwarnings hissues ⊢
  rw [herrors, hwarnings, hissues]

/-- The issues of an outcome are those that came up, in the order of their places, where issues of
one place keep their order; there is no other list of this kind. Every issue is counted, as an error
or not, and a failed `init` counts as an error more. The status is that of a success where there is
nothing to count. An outcome is not changed by finishing its issues again. -/
theorem finish_orders_and_counts (summary : Summary) (issues : List Issue) :
    let outcome := finish summary issues
    let failures := match summary with
      | .init (some _) => 1
      | _ => 0
    (∀ sorted, sorted = outcome.issues ↔
      sorted.Perm issues ∧ (sorted.Pairwise fun a b => a.place ≤ b.place) ∧
        ∀ place, sorted.filter (·.place = place) = issues.filter (·.place = place)) ∧
    outcome.errorCount = issues.countP (·.severity = .error) + failures ∧
    outcome.warningCount = issues.countP (·.severity ≠ .error) ∧
    outcome.errorCount + outcome.warningCount = issues.length + failures ∧
    (outcome.status = .success ↔ issues = [] ∧ ∀ error, summary ≠ .init (some error)) ∧
    finish summary outcome.issues = outcome := by
  intro outcome failures
  have hsorted : StablySorted Issue.place issues outcome.issues :=
    stablySorted_finish summary issues
  have hfailures : failures = if summary.isError then 1 else 0 := by
    rcases summary with _ | (_ | error) <;> rfl
  have hothers : (fun i : Issue => decide (i.severity = .warning)) =
      fun i => decide (i.severity ≠ .error) := by
    funext i
    cases i.severity <;> rfl
  refine ⟨fun sorted => ⟨?_, ?_⟩, ?_, ?_, ?_, status_finish_eq_success_iff,
    finish_finish summary issues⟩
  · rintro rfl
    exact ⟨finish_issues_perm summary issues, hsorted.pairwise, hsorted.filter_eq⟩
  · rintro ⟨-, hpairwise, hfilter⟩
    exact StablySorted.eq ⟨hpairwise, hfilter⟩ hsorted
  · rw [hfailures]
    rfl
  · rw [← hothers]
    rfl
  · rw [hfailures]
    exact problemCount_finish summary issues

/-- A file that could not be read comes behind the calls on a line 0, which stay as they were found.
-/
example :
    let call name := Issue.malformedCall "page.ast.json" ⟨.missingArgument, name, 0⟩ false
    let unread := Issue.parseError "page.ast.json" "torn"
    (finish (.init none) [unread, call "_n", call "_"]).issues = [call "_n", call "_", unread] := by
  cbv

end Outcome

end MessageHarvest
