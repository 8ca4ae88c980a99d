import MessageHarvest.Message.Format
import MessageHarvest.Config
import MessageHarvest.Outcome
import MessageHarvest.Report.Style

/-!
# Reports

How the outcome of a command is told.

* `Report.listing` is the human form of templates: the path, and each message on one line with its
  line number. Templates without messages are left out.
* `Report.issues` tells the issues, with their places and hints.
* `Report.json` is the other form of templates, and nothing but that goes to the standard output
  then.

A report is what is written if the streams take all of it. Where they do not, the human form is cut
short without a word and the other one fails; that is not considered here. Nor is the log, which is
no part of a report.
-/

namespace MessageHarvest.Report

def plain (text : String) : Span where
  text

def styled (style : Style) (text : String) : Span where
  text
  style := some style

def successMark : String := "✓"

def failureMark : String := "✘"

/-- The noun in the number that goes with a count. -/
def noun (count : Nat) (one many : String) : String :=
  if count = 1 then one else many

def counted (count : Nat) (one many : String) : String :=
  s!"{count} {noun count one many}"

/-! ## Templates -/

/-- The number of digits of the greatest line number. -/
def lineWidth (messages : List Message) : Nat :=
  match (messages.map (·.line.toNat)).max? with
  | some line => (Nat.toDigits 10 line).length
  | none => 1

/-- A line number, right-aligned. -/
def alignedLine (width : Nat) (line : UInt64) : String :=
  let digits := Nat.toDigits 10 line.toNat
  String.ofList (List.replicate (width - digits.length) ' ' ++ digits)

def messageLine (width : Nat) (message : Message) : List Span :=
  [plain "  ", styled .blue (alignedLine width message.line), plain " ", styled .blue "|",
    plain s!" {Text.quoted message.text}\n"]

/-- The messages of a template that has any. -/
def template (t : Template) : List Span :=
  if t.messages.isEmpty then []
  else
    styled .bold t.file :: plain "\n" ::
      (t.messages.flatMap (messageLine (lineWidth t.messages)) ++ [plain "\n"])

def listing (templates : List Template) : List Span :=
  templates.flatMap template

def templateJson (t : Template) : Json :=
  .object [("file", .string t.file), ("messages", .array (t.messages.map Message.toJson))]

/-- The templates with all fields of their messages. -/
def json (templates : List Template) : String :=
  Json.pretty (.array (templates.map templateJson)) ++ "\n"

/-! ## Issues -/

def severity : Severity → Span
  | .error => styled .boldRed Severity.error.name
  | .warning => styled .boldYellow Severity.warning.name

def location : Location → String
  | .source path line => s!"{path}:{line}"
  | .file path => path

def hint : Option String → List Span
  | some text =>
    [plain "  ", styled .blue "=", plain " ", styled .boldCyan "hint:", plain s!" {text}\n"]
  | none => []

def issue (i : Issue) : List Span :=
  [severity i.severity, plain s!": {i.message}  ", styled .dimCyan i.rule.name, plain "\n  ",
    styled .blue "-->", plain s!" {location i.location}\n"] ++ hint i.hint? ++ [plain "\n"]

def issues (is : List Issue) : List Span :=
  is.flatMap issue

/-! ## Closing lines -/

def success (text : String) : List Span :=
  [styled .green successMark, plain " ", styled .green text, plain "\n"]

def extracted (messages templates : Nat) : List Span :=
  success ("Extracted " ++ counted messages "message" "messages" ++ " from " ++
    counted templates "template" "templates")

/-- The number of problems, if there are any. -/
def problems (outcome : Outcome) : List Span :=
  let problems := counted outcome.problemCount "problem" "problems"
  if outcome.problemCount = 0 then []
  else
    [styled .red failureMark, plain s!" {problems} ({outcome.errorCount} ",
      styled .red (noun outcome.errorCount "error" "errors"), plain s!", {outcome.warningCount} ",
      styled .yellow (noun outcome.warningCount "warning" "warnings"), plain ")\n"]

/-! ## Whole reports -/

/-- What goes to the standard output and what goes to the standard error. -/
structure Streams where
  stdout : String := ""
  stderr : String := ""
deriving DecidableEq, Repr

/-- The human form of an extraction: its messages, its issues and the closing lines. -/
def human (outcome : Outcome) (templates : List Template) (scanned : Nat) : List Span :=
  let messages := outcome.summary.messageCount?.getD 0
  listing templates ++ issues outcome.issues ++ extracted messages scanned ++ problems outcome

def initialized : Option String → List Span
  | some error => [styled .boldRed "Error:", plain s!" {error}\n"]
  | none => success s!"Created {Config.fileName}"

/-- The report of an outcome. -/
def streams (colors : Bool) (outcome : Outcome) : Streams :=
  match outcome.summary with
  | .extract templates scanned .human =>
    { stdout := render colors (human outcome templates scanned) }
  | .extract templates _ .json =>
    { stdout := json templates, stderr := render colors (issues outcome.issues) }
  | .init (some error) => { stderr := render colors (initialized (some error)) }
  | .init none => { stdout := render colors (initialized none) }

end MessageHarvest.Report
