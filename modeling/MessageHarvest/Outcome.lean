import MessageHarvest.Command
import MessageHarvest.Template

/-!
# Outcomes of commands

What a command did and the issues that came up, in the order of their places. `Outcome.finish` sorts
and counts the issues; the status of the program follows from the counts.
-/

namespace MessageHarvest

/-- What a command did: which templates it read, of how many that it found, or whether it made a
configuration file and why not. -/
inductive Summary where
  | extract (templates : List Template) (scanned : Nat) (format : ReportFormat)
  | init (error : Option String)
deriving DecidableEq, Repr

namespace Summary

/-- The number of messages that were extracted. -/
def messageCount? : Summary → Option Nat
  | extract templates _ _ => some ((templates.map (·.messages.length)).foldr Nat.add 0)
  | init _ => none

/-- Whether the command failed in what it was to do. -/
def isError : Summary → Bool
  | init (some _) => true
  | _ => false

end Summary

/-- How the program ends: without an issue, with issues, or before its work was done. -/
inductive Status where
  | success
  | failure
  | error
deriving DecidableEq, Repr

namespace Status

def name : Status → String
  | success => "success"
  | failure => "failure"
  | error => "error"

def code : Status → Nat
  | success => 0
  | failure => 1
  | error => 2

end Status

structure Outcome where
  summary : Summary
  errorCount : Nat
  warningCount : Nat
  issues : List Issue
deriving DecidableEq, Repr

namespace Outcome

/-- The order of issues: by path, then by line, then by rule. -/
def comesBefore (a b : Issue) : Bool :=
  if a.location.path ≠ b.location.path then a.location.path < b.location.path
  else if a.location.line ≠ b.location.line then a.location.line < b.location.line
  else a.rule.rank ≤ b.rule.rank

/-- Sorts the issues and counts them. A command that failed counts as one error more. -/
def finish (summary : Summary) (issues : List Issue) : Outcome where
  summary
  errorCount := issues.countP (·.severity = .error) + if summary.isError then 1 else 0
  warningCount := issues.countP (·.severity = .warning)
  issues := issues.mergeSort comesBefore

def problemCount (outcome : Outcome) : Nat :=
  outcome.errorCount + outcome.warningCount

def status (outcome : Outcome) : Status :=
  if 0 < outcome.problemCount then .failure else .success

theorem finish_issues_perm (summary : Summary) (issues : List Issue) :
    (finish summary issues).issues.Perm issues :=
  List.mergeSort_perm _ _

theorem status_eq_success_iff (outcome : Outcome) :
    outcome.status = .success ↔ outcome.problemCount = 0 := by
  unfold status
  split <;> simp <;> omega

end Outcome

end MessageHarvest
