import MessageHarvest.Proofs.Report.Listing

/-!
# Reports with and without colours

Colours add nothing to a report but sequences for the terminal: without them the two reports of an
extraction are the same. Texts of messages are quoted, so that no escape character of theirs is
left; paths and the texts of issues are written as they are and must have none.

* `Report.withoutSequences`: a text without the sequences in it.
* `Report.withoutSequences_streams`: what is left of the report of an extraction with colours is the
  report without.
-/

namespace MessageHarvest.Report

/-! ## Sequences -/

/-- Leaves out what stands between an escape character and the next `m`, with both. The flag says
whether the text begins within a sequence. -/
def dropSequences : Bool → List Char → List Char
  | false, '\x1b' :: rest => dropSequences true rest
  | false, c :: rest => c :: dropSequences false rest
  | true, 'm' :: rest => dropSequences false rest
  | true, _ :: rest => dropSequences true rest
  | _, [] => []

/-- The text without its sequences. -/
def withoutSequences (text : String) : String :=
  String.ofList (dropSequences false text.toList)

/-- A text with no escape character in it. -/
def Clean (text : String) : Prop :=
  '\x1b' ∉ text.toList

instance (text : String) : Decidable (Clean text) :=
  inferInstanceAs (Decidable ('\x1b' ∉ text.toList))

theorem dropSequences_append {text : List Char} (h : '\x1b' ∉ text) (rest : List Char) :
    dropSequences false (text ++ rest) = text ++ dropSequences false rest := by
  induction text with
  | nil => rfl
  | cons c text ih =>
    obtain ⟨hc, htext⟩ := not_or.mp (List.mem_cons.not.mp h)
    rw [List.cons_append, dropSequences, ih htext, List.cons_append]
    exact fun hescape => hc hescape.symm

theorem dropSequences_on (style : Style) (rest : List Char) :
    dropSequences false (style.on ++ rest) = dropSequences false rest := by
  cases style <;> rfl

theorem dropSequences_off (rest : List Char) :
    dropSequences false (off ++ rest) = dropSequences false rest :=
  rfl

/-- A text that switches nothing off is left as it is. -/
theorem keepOn_of_clean (style : Style) {text : List Char} (h : '\x1b' ∉ text) :
    keepOn style text = text := by
  induction text with
  | nil => rfl
  | cons c text ih =>
    obtain ⟨hc, htext⟩ := not_or.mp (List.mem_cons.not.mp h)
    rw [keepOn, ih htext]
    rintro rest rfl
    exact absurd rfl hc

/-! ## Spans -/

theorem dropSequences_span {span : Span} (h : Clean span.text) (rest : List Char) :
    dropSequences false (span.render true ++ rest) =
      span.text.toList ++ dropSequences false rest := by
  obtain ⟨text, _ | style⟩ := span
  · exact dropSequences_append h rest
  · have hform : Span.render true ⟨text, some style⟩ ++ rest =
        style.on ++ (text.toList ++ (off ++ rest)) := by
      simp [Span.render, keepOn_of_clean style h]
    rw [hform, dropSequences_on, dropSequences_append h, dropSequences_off]

/-- Where the texts of the spans have no escape character, colours can be taken out again. -/
theorem withoutSequences_render {spans : List Span} (h : ∀ span ∈ spans, Clean span.text) :
    withoutSequences (render true spans) = render false spans := by
  rw [withoutSequences, render_plain, render, String.toList_ofList]
  congr 1
  induction spans with
  | nil => rfl
  | cons span spans ih =>
    rw [List.forall_mem_cons] at h
    rw [List.flatMap_cons, List.flatMap_cons, dropSequences_span h.1, ih h.2]

/-! ## Clean texts -/

@[simp]
theorem clean_append {s t : String} : Clean (s ++ t) ↔ Clean s ∧ Clean t := by
  simp [Clean]

@[simp]
theorem clean_repr (n : Nat) : Clean n.repr := by
  rw [Clean, Nat.repr_eq_ofList_toDigits, String.toList_ofList]
  exact notMem_digits (by decide) n

/-- Quoting leaves no escape character of a text. -/
theorem clean_quoted (text : String) : Clean (Text.quoted text) := by
  rw [Clean, Text.quoted, String.toList_ofList]
  exact Text.notMem_quotedChars (by decide) _

theorem clean_alignedLine (width : Nat) (line : UInt64) : Clean (alignedLine width line) := by
  have hdigits : '\x1b' ∉ Nat.toDigits 10 line.toNat := notMem_digits (by decide) _
  simp [Clean, alignedLine, hdigits]

theorem clean_noun {one many : String} (hone : Clean one) (hmany : Clean many) (count : Nat) :
    Clean (noun count one many) := by
  unfold noun
  split
  · exact hone
  · exact hmany

theorem clean_counted (one many : String) (hone : Clean one) (hmany : Clean many) (count : Nat) :
    Clean (counted count one many) := by
  have hblank : Clean " " := by decide
  simp [counted, toString, clean_noun hone hmany, hblank]

/-! ## Clean reports -/

theorem clean_messageLine (width : Nat) (m : Message) :
    ∀ span ∈ messageLine width m, Clean span.text := by
  have hblank : Clean " " := by decide
  have hbreak : Clean "\n" := by decide
  simp only [messageLine, plain, styled, List.forall_mem_cons]
  exact ⟨by decide, clean_alignedLine width m.line, by decide, by decide,
    by simp [toString, clean_quoted, hblank, hbreak], List.forall_mem_nil _⟩

theorem clean_template {t : Template} (h : Clean t.file) :
    ∀ span ∈ template t, Clean span.text := by
  intro span hspan
  unfold template at hspan
  split at hspan
  · cases hspan
  · simp only [List.mem_cons, List.mem_append, List.mem_flatMap, List.not_mem_nil,
      or_false] at hspan
    rcases hspan with rfl | rfl | ⟨m, -, hm⟩ | rfl
    · exact h
    · decide
    · exact clean_messageLine _ m span hm
    · decide

theorem clean_location {location : Location} (h : Clean location.path) :
    Clean (Report.location location) := by
  have hcolon : Clean ":" := by decide
  cases location with
  | source path line =>
    have hpath : Clean path := h
    simp [Report.location, toString, hpath, hcolon]
  | file path => exact h

theorem clean_of_hint? {i : Issue} {text : String} (h : i.hint? = some text) : Clean text := by
  rcases i with ⟨file, fault, _ | _⟩ | ⟨file, reason⟩
  · cases h
    decide
  · cases h
    decide
  · cases h

theorem clean_hint (i : Issue) : ∀ span ∈ hint i.hint?, Clean span.text := by
  have hbetween : Clean " " ∧ Clean "\n" := by decide
  cases htext : i.hint? with
  | none => exact List.forall_mem_nil _
  | some text =>
    simp only [hint, plain, styled, List.forall_mem_cons]
    exact ⟨by decide, by decide, by decide, by decide,
      by simp [toString, hbetween, clean_of_hint? htext], List.forall_mem_nil _⟩

theorem clean_issue {i : Issue} (hpath : Clean i.location.path) (hmessage : Clean i.message) :
    ∀ span ∈ issue i, Clean span.text := by
  have hseverity : Clean (severity i.severity).text := by
    cases i.severity <;> decide
  have hrule : Clean i.rule.name := by
    cases i.rule <;> decide
  have hbetween : Clean ": " ∧ Clean "  " ∧ Clean " " ∧ Clean "\n" := by decide
  intro span hspan
  simp only [issue, List.cons_append, List.nil_append, List.mem_cons, List.mem_append,
    List.not_mem_nil, or_false] at hspan
  rcases hspan with rfl | rfl | rfl | rfl | rfl | rfl | hhint | rfl
  · exact hseverity
  · simp [plain, toString, hbetween, hmessage]
  · exact hrule
  · decide
  · decide
  · simp [plain, toString, hbetween, clean_location hpath]
  · exact clean_hint i span hhint
  · decide

theorem clean_extracted (messages templates : Nat) :
    ∀ span ∈ extracted messages templates, Clean span.text := by
  have hbetween : Clean "Extracted " ∧ Clean " from " := by decide
  have hmessages := clean_counted "message" "messages" (by decide) (by decide) messages
  have htemplates := clean_counted "template" "templates" (by decide) (by decide) templates
  simp only [extracted, success, plain, styled, List.forall_mem_cons]
  exact ⟨by decide, by decide, by simp [hbetween, hmessages, htemplates], by decide,
    List.forall_mem_nil _⟩

theorem clean_problems (outcome : Outcome) : ∀ span ∈ problems outcome, Clean span.text := by
  have hbetween : Clean " " ∧ Clean " (" ∧ Clean ", " := by decide
  have hproblems := clean_counted "problem" "problems" (by decide) (by decide)
    outcome.problemCount
  unfold problems
  split
  · exact List.forall_mem_nil _
  · simp only [plain, styled, List.forall_mem_cons]
    exact ⟨by decide, by simp [toString, hbetween, hproblems],
      clean_noun (by decide) (by decide) _, by simp [toString, hbetween],
      clean_noun (by decide) (by decide) _, by decide, List.forall_mem_nil _⟩

theorem clean_human {outcome : Outcome} {templates : List Template}
    (htemplates : ∀ t ∈ templates, Clean t.file)
    (hissues : ∀ i ∈ outcome.issues, Clean i.location.path ∧ Clean i.message) (scanned : Nat) :
    ∀ span ∈ human outcome templates scanned, Clean span.text := by
  intro span hspan
  simp only [human, listing, issues, List.mem_append, List.mem_flatMap] at hspan
  rcases hspan with ((⟨t, ht, hspan⟩ | ⟨i, hi, hspan⟩) | hspan) | hspan
  · exact clean_template (htemplates t ht) span hspan
  · exact clean_issue (hissues i hi).1 (hissues i hi).2 span hspan
  · exact clean_extracted _ _ span hspan
  · exact clean_problems outcome span hspan

/-- Whatever the texts of the messages are, and however many issues and problems there are, the
human form of an extraction with colours is the form without once its sequences are left out, as
long as paths and issues have no escape character. -/
theorem withoutSequences_streams (outcome : Outcome) (templates : List Template) (scanned : Nat)
    (hsummary : outcome.summary = .extract templates scanned .human)
    (htemplates : ∀ t ∈ templates, Clean t.file)
    (hissues : ∀ i ∈ outcome.issues, Clean i.location.path ∧ Clean i.message) :
    withoutSequences (streams true outcome).stdout = (streams false outcome).stdout ∧
      (streams true outcome).stderr = "" ∧ (streams false outcome).stderr = "" := by
  simp only [streams, hsummary, and_true]
  exact withoutSequences_render (clean_human htemplates hissues scanned)

/-- A message that would switch all styles off, next to a malformed call. -/
theorem withoutSequences_streams_reset :
    let outcome : Outcome :=
      { summary := .extract [⟨"page.html", [.plain "\x1b[0m" 7, .plain "name" 12]⟩] 2 .human
        errorCount := 0
        warningCount := 1
        issues := [.malformedCall "page.html" ⟨.missingArgument, "_", 9⟩ false] }
    withoutSequences (streams true outcome).stdout = (streams false outcome).stdout ∧
      (streams true outcome).stdout ≠ (streams false outcome).stdout := by
  intro outcome
  exact ⟨(withoutSequences_streams outcome _ _ rfl (by decide) (by decide)).1, by decide +kernel⟩

end MessageHarvest.Report
