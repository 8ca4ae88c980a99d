import MessageHarvest.Proofs.Text.Quoted
import MessageHarvest.Report
import Mathlib.Data.List.Forall2

/-!
# Listings can be read

Without colours a listing is a sequence of blocks: the path of a template, one line for each of its
messages and an empty line. Lines of messages are never empty and have no line break in them,
whatever the texts of the messages are, so the blocks can be told apart even where a path looks like
the line of a message, and what a listing shows can be read from it.

* `Report.Block`: what a listing shows of a template.
* `Report.listing_shows_blocks`: listings are the same exactly when they show the same, and every
  message takes one line.
-/

namespace MessageHarvest.Report

/-! ## Blocks -/

/-- What a listing shows of a template: its path, and the line and the text of each message. -/
@[ext]
structure Block where
  file : String
  messages : List (UInt64 × String)
deriving DecidableEq, Repr

def Block.ofTemplate (t : Template) : Block where
  file := t.file
  messages := t.messages.map fun m => (m.line, m.text)

/-- What a listing shows: the templates that have messages, in order. -/
def blocks (templates : List Template) : List Block :=
  (templates.filter fun t => !t.messages.isEmpty).map .ofTemplate

/-- The line of a message, without its line break. -/
def row (width : Nat) (line : UInt64) (text : String) : List Char :=
  ' ' :: ' ' :: (alignedLine width line).toList ++
    ' ' :: '|' :: ' ' :: Text.quotedChars text.toList

namespace Block

def width (b : Block) : Nat :=
  lineWidth (b.messages.map fun m => .plain m.2 m.1)

def rows (b : Block) : List (List Char) :=
  b.messages.map fun m => row b.width m.1 m.2

/-- The lines of a block: its path, one for each message, and an empty one. -/
def lines (b : Block) : List (List Char) :=
  b.file.toList :: b.rows ++ [[]]

/-- Only the line numbers count. -/
theorem width_ofTemplate (t : Template) : (ofTemplate t).width = lineWidth t.messages := by
  have hlines : ((ofTemplate t).messages.map fun m => Message.plain m.2 m.1).map (·.line.toNat) =
      t.messages.map (·.line.toNat) := by
    simp [ofTemplate, Message.plain]
  rw [width, lineWidth, lineWidth, hlines]

end Block

/-! ## What is written -/

theorem text_messageLine (width : Nat) (m : Message) :
    (messageLine width m).flatMap (·.text.toList) = row width m.line m.text ++ ['\n'] := by
  simp [messageLine, plain, styled, row, Text.quoted, toString]

theorem text_template {t : Template} (h : t.messages ≠ []) :
    (template t).flatMap (·.text.toList) =
      (Block.ofTemplate t).lines.flatMap (· ++ ['\n']) := by
  have hrows : (t.messages.flatMap (messageLine (lineWidth t.messages))).flatMap (·.text.toList) =
      (Block.ofTemplate t).rows.flatMap (· ++ ['\n']) := by
    rw [Block.rows, Block.width_ofTemplate, Block.ofTemplate, List.map_map, List.flatMap_map,
      List.flatMap_assoc]
    simp only [text_messageLine, Function.comp_apply]
  have hany : t.messages.isEmpty = false := by simpa using h
  simp only [template, hany, Bool.false_eq_true, if_false, List.flatMap_cons,
    List.flatMap_append, hrows, Block.lines, List.cons_append]
  simp [plain, styled, Block.ofTemplate]

/-- The lines of a listing, one after the other. -/
theorem text_listing (templates : List Template) :
    (render false (listing templates)).toList =
      ((blocks templates).flatMap Block.lines).flatMap (· ++ ['\n']) := by
  rw [render_plain, String.toList_ofList, listing]
  induction templates with
  | nil => rfl
  | cons t ts ih =>
    rw [List.flatMap_cons, List.flatMap_append, ih]
    by_cases hnone : t.messages = []
    · simp [template, blocks, hnone]
    · simp [blocks, hnone, text_template hnone]

/-! ## Rows -/

theorem notMem_digits {c : Char} (hc : c.isDigit = false) (n : Nat) : c ∉ Nat.toDigits 10 n := by
  intro h
  rw [Nat.isDigit_of_mem_toDigits (by decide) (by decide) h] at hc
  cases hc

/-- No row has a line break in it, whatever the text of the message is. -/
theorem break_notMem_row (width : Nat) (line : UInt64) (text : String) :
    '\n' ∉ row width line text := by
  have hdigits : '\n' ∉ Nat.toDigits 10 line.toNat := notMem_digits (by decide) _
  have hquoted : '\n' ∉ Text.quotedChars text.toList := Text.notMem_quotedChars (by decide) _
  simp [row, alignedLine, hdigits, hquoted]

theorem row_ne_nil (width : Nat) (line : UInt64) (text : String) : row width line text ≠ [] := by
  simp [row]

/-- Two texts with the same mark behind a part that does not have it. -/
theorem append_mark_inj {α : Type} {mark : α} {xs ys s t : List α} (hx : mark ∉ xs)
    (hy : mark ∉ ys) (h : xs ++ mark :: s = ys ++ mark :: t) : xs = ys ∧ s = t := by
  induction xs generalizing ys with
  | nil =>
    cases ys with
    | nil => exact ⟨rfl, (List.cons.inj h).2⟩
    | cons y ys => exact absurd (List.cons.inj h).1 (List.ne_of_not_mem_cons hy)
  | cons x xs ih =>
    cases ys with
    | nil => exact absurd (List.cons.inj h).1.symm (List.ne_of_not_mem_cons hx)
    | cons y ys =>
      obtain ⟨rfl, hrest⟩ := List.cons.inj h
      obtain ⟨rfl, hst⟩ := ih (List.not_mem_of_not_mem_cons hx) (List.not_mem_of_not_mem_cons hy)
        hrest
      exact ⟨rfl, hst⟩

/-- Padding hides no digit: what is behind the blanks is the line number and the text. -/
theorem dropWhile_row (width : Nat) (line : UInt64) (text : String) :
    (row width line text).dropWhile (· == ' ') =
      Nat.toDigits 10 line.toNat ++ ' ' :: '|' :: ' ' :: Text.quotedChars text.toList := by
  have hform : row width line text =
      List.replicate (2 + (width - (Nat.toDigits 10 line.toNat).length)) ' ' ++
        (Nat.toDigits 10 line.toNat ++ ' ' :: '|' :: ' ' :: Text.quotedChars text.toList) := by
    simp [row, alignedLine, List.replicate_add, List.replicate_succ]
  have hne : Nat.toDigits 10 line.toNat ≠ [] := Nat.toDigits_ne_nil
  obtain ⟨d, ds, hdigits⟩ := List.exists_cons_of_ne_nil hne
  have hd : ¬(d == ' ') := by
    have hmem : d ∈ Nat.toDigits 10 line.toNat := by rw [hdigits]; exact List.mem_cons_self
    intro hblank
    rw [eq_of_beq hblank] at hmem
    exact notMem_digits (by decide) _ hmem
  rw [hform, List.dropWhile_append_of_pos (by simp), hdigits, List.cons_append,
    List.dropWhile_cons, if_neg hd]

theorem row_inj {width width' : Nat} {line line' : UInt64} {text text' : String}
    (h : row width line text = row width' line' text') : line = line' ∧ text = text' := by
  have hbehind := congrArg (List.dropWhile (· == ' ')) h
  rw [dropWhile_row, dropWhile_row] at hbehind
  obtain ⟨hdigits, hrest⟩ := append_mark_inj (notMem_digits (by decide) _)
    (notMem_digits (by decide) _) hbehind
  have hnumber := congrArg (Nat.ofDigitChars 10 · 0) hdigits
  simp only [Nat.ofDigitChars_ten_toDigits] at hnumber
  have hquoted : Text.quotedChars text.toList = Text.quotedChars text'.toList := by
    simpa using hrest
  exact ⟨UInt64.toNat_inj.mp hnumber, String.toList_inj.mp (Text.quotedChars_inj hquoted)⟩

/-! ## Reading blocks -/

namespace Block

theorem nil_notMem_rows (b : Block) : [] ∉ b.rows := by
  intro h
  obtain ⟨m, -, hm⟩ := List.mem_map.mp h
  exact row_ne_nil _ _ _ hm

theorem messages_inj {b c : Block} (h : b.rows = c.rows) : b.messages = c.messages := by
  rw [← List.forall₂_eq_eq_eq, rows, rows, List.forall₂_map_left_iff,
    List.forall₂_map_right_iff] at h
  rw [← List.forall₂_eq_eq_eq]
  exact h.imp fun m n hrow => Prod.ext (row_inj hrow).1 (row_inj hrow).2

/-- The first block of a sequence of lines can be read from them: it ends at the first empty line
behind the path. -/
theorem lines_append_inj {b c : Block} {s t : List (List Char)}
    (h : b.lines ++ s = c.lines ++ t) : b = c ∧ s = t := by
  simp only [lines, List.append_assoc, List.cons_append, List.nil_append, List.cons.injEq] at h
  obtain ⟨hfile, hrest⟩ := h
  obtain ⟨hrows, hst⟩ := append_mark_inj b.nil_notMem_rows c.nil_notMem_rows hrest
  exact ⟨Block.ext (String.toList_inj.mp hfile) (messages_inj hrows), hst⟩

theorem flatMap_lines_inj {bs cs : List Block} (h : bs.flatMap lines = cs.flatMap lines) :
    bs = cs := by
  induction bs generalizing cs with
  | nil =>
    cases cs with
    | nil => rfl
    | cons c cs => cases h
  | cons b bs ih =>
    cases cs with
    | nil => cases h
    | cons c cs =>
      obtain ⟨rfl, hrest⟩ := lines_append_inj h
      rw [ih hrest]

theorem break_notMem_lines {b : Block} (hb : '\n' ∉ b.file.toList) :
    ∀ l ∈ b.lines, '\n' ∉ l := by
  intro l hl
  simp only [lines, List.mem_cons, List.mem_append, List.cons_append, List.not_mem_nil,
    or_false] at hl
  rcases hl with rfl | hrow | rfl
  · exact hb
  · obtain ⟨m, -, rfl⟩ := List.mem_map.mp hrow
    exact break_notMem_row _ _ _
  · exact List.not_mem_nil

end Block

theorem splitOn_lines {ls : List (List Char)} (h : ∀ l ∈ ls, '\n' ∉ l) :
    (ls.flatMap (· ++ ['\n'])).splitOn '\n' = ls ++ [[]] := by
  induction ls with
  | nil => rfl
  | cons l ls ih =>
    rw [List.forall_mem_cons] at h
    rw [List.flatMap_cons, List.append_assoc, List.singleton_append, List.splitOn_append_cons_self,
      List.splitOn_eq_singleton h.1, ih h.2, List.singleton_append, List.cons_append]

/-- The lines of a listing are the lines of what it shows. -/
theorem splitOn_listing {templates : List Template}
    (h : ∀ t ∈ templates, '\n' ∉ t.file.toList) :
    (render false (listing templates)).toList.splitOn '\n' =
      (blocks templates).flatMap Block.lines ++ [[]] := by
  rw [text_listing]
  refine splitOn_lines fun l hl => ?_
  obtain ⟨b, hb, hlb⟩ := List.mem_flatMap.mp hl
  obtain ⟨t, ht, rfl⟩ := List.mem_map.mp hb
  exact Block.break_notMem_lines (h t (List.mem_of_mem_filter ht)) l hlb

/-- Without colours, the listings of two lists of templates whose paths have no line break are the
same exactly when the lists have the same templates with messages: the same paths in the same order,
and for each the same lines and texts. Broken into lines, such a listing has the path of each of
these templates, then one line for each message, then an empty line; and the line of a message has
no line break in it whatever the message and the paths are. -/
theorem listing_shows_blocks (ts us : List Template) (hts : ∀ t ∈ ts, '\n' ∉ t.file.toList)
    (hus : ∀ u ∈ us, '\n' ∉ u.file.toList) :
    (render false (listing ts) = render false (listing us) ↔ blocks ts = blocks us) ∧
      (render false (listing ts)).toList.splitOn '\n' =
        (blocks ts).flatMap Block.lines ++ [[]] ∧
      (∀ width line text, '\n' ∉ row width line text) := by
  refine ⟨⟨fun h => ?_, fun h => ?_⟩, splitOn_listing hts, break_notMem_row⟩
  · have hlines := congrArg (fun text => text.toList.splitOn '\n') h
    simp only [splitOn_listing hts, splitOn_listing hus, List.append_left_inj] at hlines
    exact Block.flatMap_lines_inj hlines
  · rw [← String.toList_inj, text_listing, text_listing, h]

/-- A path like the line of a message, and texts that differ in what is written by a backslash. -/
theorem listing_shows_blocks_backslash :
    let ts : List Template := [⟨"  1 | \"page\"", [.plain "a\nb" 7, .plain "c" 12]⟩]
    let us : List Template := [⟨"  1 | \"page\"", [.plain "a\\nb" 7, .plain "c" 12]⟩]
    render false (listing ts) ≠ render false (listing us) ∧
      (render false (listing ts)).toList.splitOn '\n' =
        ["  1 | \"page\"", "   7 | \"a\\nb\"", "  12 | \"c\"", "", ""].map (·.toList) := by
  intro ts us
  obtain ⟨hsame, hlines, -⟩ := listing_shows_blocks ts us (by decide) (by decide)
  have hother : blocks ts ≠ blocks us := by decide
  exact ⟨fun h => hother (hsame.mp h), hlines.trans (by decide)⟩

end MessageHarvest.Report
