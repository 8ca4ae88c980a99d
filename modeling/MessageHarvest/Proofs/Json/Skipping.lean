import MessageHarvest.Proofs.Json.Passing

/-!
# Whatever is spelled can be passed over

A value that no one reads is looked at only as far as its end must be found. `skip_of_spells`: for
every spelling of a value, of whatever depth and with whatever numbers, that is the end of the
spelling. No value is too deep to be passed over, as one can be to be read (`value_of_spells`).
-/

namespace MessageHarvest.Json

/-! ## Numbers -/

namespace Lexeme

theorem isDigit_of_digit? {c : Char} {d : Nat} (h : digit? c = some d) : c.isDigit = true := by
  unfold digit? at h
  split at h
  · assumption
  · cases h

theorem not_isDigit_of_digit? {c : Char} (h : digit? c = none) : c.isDigit = false := by
  unfold digit? at h
  split at h
  · cases h
  · exact Bool.eq_false_iff.mpr ‹_›

theorem skipDigits_eq (count : Nat) (text : List Char) :
    (skipDigits count text).2 = text.dropWhile Char.isDigit := by
  induction text generalizing count with
  | nil => rfl
  | cons c rest ih =>
    rw [skipDigits, List.dropWhile_cons]
    split
    · exact ih (count + 1)
    · rfl

/-- What is absorbed into an integer are digits. -/
theorem dropWhile_absorb (n taken : Nat) (text : List Char) :
    (absorb n taken text).2.2.dropWhile Char.isDigit = text.dropWhile Char.isDigit := by
  induction text generalizing n taken with
  | nil => rfl
  | cons c rest ih =>
    unfold absorb
    split
    · rename_i d hd
      split
      · rw [ih, List.dropWhile_cons_of_pos (isDigit_of_digit? hd)]
      · rfl
    · rfl

theorem dropWhile_exponentDigits (e : Nat) (text : List Char) :
    (exponentDigits e text).2.dropWhile Char.isDigit = text.dropWhile Char.isDigit := by
  induction text generalizing e with
  | nil => rfl
  | cons c rest ih =>
    unfold exponentDigits
    split
    · rename_i d hd
      rw [List.dropWhile_cons_of_pos (isDigit_of_digit? hd)]
      split
      · exact ih _
      · rfl
    · rfl

/-- An exponent that is not too large is read up to its last digit. -/
theorem exponentDigits_eq_some {e e' : Nat} {text rest : List Char}
    (h : exponentDigits e text = (some e', rest)) : rest = text.dropWhile Char.isDigit := by
  induction text generalizing e with
  | nil =>
    cases h
    rfl
  | cons c text ih =>
    unfold exponentDigits at h
    split at h
    · rename_i d hd
      rw [List.dropWhile_cons_of_pos (isDigit_of_digit? hd)]
      split at h
      · exact ih h
      · cases h
    · rename_i hd
      cases h
      rw [List.dropWhile_cons_of_neg (by simp [not_isDigit_of_digit? hd])]

theorem dropWhile_of_not_startsWithDigit {text : List Char} (h : startsWithDigit text = false) :
    text.dropWhile Char.isDigit = text := by
  cases text with
  | nil => rfl
  | cons c rest =>
    have hc : c.isDigit = false := h
    rw [List.dropWhile_cons_of_neg (by simp [hc])]

/-- What is left behind an exponent, or of the whole text if none follows. -/
inductive AfterExponent : (text rest : List Char) → Prop where
  | exponent {letter c : Char} {sign more : List Char} (hletter : letter = 'e' ∨ letter = 'E')
      (hsign : sign ∈ [[], ['+'], ['-']]) (hc : c.isDigit = true) :
      AfterExponent (letter :: (sign ++ c :: more)) (more.dropWhile Char.isDigit)
  | none {text : List Char} (h : ∀ more, text ≠ 'e' :: more ∧ text ≠ 'E' :: more) :
      AfterExponent text text

/-- What is left of a number behind its first digits. -/
inductive AfterDigits : (text rest : List Char) → Prop where
  | fraction {text rest : List Char} (hdigit : startsWithDigit text = true)
      (h : AfterExponent (text.dropWhile Char.isDigit) rest) : AfterDigits ('.' :: text) rest
  | whole {text rest : List Char} (hpoint : ∀ more, text ≠ '.' :: more)
      (h : AfterExponent text rest) : AfterDigits text rest

variable {positive : Bool} {n : Nat} {base : Int} {text rest : List Char} {x : Number}

theorem afterExponent_of_exponent {letter : Char} (hletter : letter = 'e' ∨ letter = 'E')
    (h : exponent positive n base text = .ok (x, rest)) : AfterExponent (letter :: text) rest := by
  unfold exponent at h
  split at h
  rename_i raises unsigned hsigned
  have hsign : ∃ sign ∈ [[], ['+'], ['-']], text = sign ++ unsigned := by
    split at hsigned <;> cases hsigned
    · exact ⟨['+'], by simp, rfl⟩
    · exact ⟨['-'], by simp, rfl⟩
    · exact ⟨[], by simp, rfl⟩
  obtain ⟨sign, hmem, rfl⟩ := hsign
  split at h
  · cases h
  · rename_i c more
    split at h
    · cases h
    · rename_i d hd
      have hrest : rest = more.dropWhile Char.isDigit := by
        split at h
        · rename_i e after he
          rw [float_rest h, exponentDigits_eq_some he]
        · rename_i after he
          have hafter := dropWhile_exponentDigits d more
          split at h
          · cases h
          · cases h
            rw [skipDigits_eq, ← hafter, he]
      rw [hrest]
      exact .exponent hletter hmem (isDigit_of_digit? hd)

theorem afterExponent_of_exponent? (h : exponent? positive n base text = .ok (x, rest)) :
    AfterExponent text rest := by
  unfold exponent? at h
  split at h
  · exact afterExponent_of_exponent (.inl rfl) h
  · exact afterExponent_of_exponent (.inr rfl) h
  · rename_i hsmall hlarge
    rw [float_rest h]
    exact .none fun more => ⟨hsmall more, hlarge more⟩

theorem afterDigits_of_fraction (h : fraction positive n base text = .ok (x, rest)) :
    AfterDigits ('.' :: text) rest := by
  unfold fraction at h
  split at h
  · rename_i hdigit
    dsimp only at h
    rw [skipDigits_eq, dropWhile_absorb] at h
    exact .fraction hdigit (afterExponent_of_exponent? h)
  · split at h <;> cases h

/-- A number is read from a digit, and a zero is not followed by another one. -/
theorem exists_of_number (h : number positive text = .ok (x, rest)) :
    ∃ c more, text = c :: more ∧ c.isDigit = true ∧ ¬ (c = '0' ∧ startsWithDigit more = true) ∧
      AfterDigits (more.dropWhile Char.isDigit) rest := by
  unfold number at h
  split at h
  · cases h
  · rename_i c more
    split at h
    · cases h
    · rename_i d hd
      split at h
      · cases h
      · rename_i hzero
        have hfirst : ¬ (c = '0' ∧ startsWithDigit more = true) := by
          rintro ⟨rfl, hmore⟩
          cases hd
          exact hzero ⟨rfl, hmore⟩
        refine ⟨c, more, rfl, isDigit_of_digit? hd, hfirst, ?_⟩
        dsimp only at h
        rw [skipDigits_eq, dropWhile_absorb] at h
        split at h
        · rename_i tail htail
          rw [htail]
          exact afterDigits_of_fraction h
        · rename_i tail htail
          rw [htail]
          exact .whole (by simp) (afterExponent_of_exponent (.inl rfl) h)
        · rename_i tail htail
          rw [htail]
          exact .whole (by simp) (afterExponent_of_exponent (.inr rfl) h)
        · rename_i hpoint hsmall hlarge
          have hrest : rest = more.dropWhile Char.isDigit := by
            split at h
            · cases h
              rfl
            · exact float_rest h
          rw [hrest]
          exact .whole hpoint (.none fun more => ⟨hsmall more, hlarge more⟩)

end Lexeme

namespace Skip

open Lexeme (AfterExponent AfterDigits skipDigits_eq)

theorem exponent_append {sign : List Char} (hsign : sign ∈ [[], ['+'], ['-']]) {c : Char}
    (hc : c.isDigit = true) (more : List Char) :
    exponent (sign ++ c :: more) = .ok (more.dropWhile Char.isDigit) := by
  simp only [List.mem_cons, List.not_mem_nil, or_false] at hsign
  rcases hsign with rfl | rfl | rfl
  · -- a digit is no sign
    unfold exponent
    split
    · rename_i heq
      cases heq
      cases hc
    · rename_i heq
      cases heq
      cases hc
    · simp [hc, skipDigits_eq]
  · simp [exponent, hc, skipDigits_eq]
  · simp [exponent, hc, skipDigits_eq]

theorem exponent_of_after {text rest : List Char} : AfterExponent text rest →
    (match text with
      | 'e' :: more => exponent more
      | 'E' :: more => exponent more
      | more => .ok more) = .ok rest := by
  rintro (⟨rfl | rfl, hsign, hc⟩ | hnone)
  · exact exponent_append hsign hc _
  · exact exponent_append hsign hc _
  · split
    · exact absurd rfl (hnone _).1
    · exact absurd rfl (hnone _).2
    · rfl

/-- A number that is read can be passed over. -/
theorem number_of_number {positive : Bool} {text rest : List Char} {x : Number}
    (h : Lexeme.number positive text = .ok (x, rest)) : number text = .ok rest := by
  obtain ⟨c, more, rfl, hc, hfirst, hafter⟩ := Lexeme.exists_of_number h
  have hdigits : (if c = '0' then more else (Lexeme.skipDigits 0 more).2) =
      more.dropWhile Char.isDigit := by
    split
    · rename_i hzero
      have hmore : Lexeme.startsWithDigit more = false :=
        Bool.eq_false_iff.mpr fun hmore => hfirst ⟨hzero, hmore⟩
      exact (Lexeme.dropWhile_of_not_startsWithDigit hmore).symm
    · exact skipDigits_eq 0 more
  unfold number
  dsimp only
  rw [if_neg hfirst, if_pos hc, hdigits]
  generalize more.dropWhile Char.isDigit = tail at hafter
  cases hafter with
  | fraction hdigit h =>
    simp only [hdigit, if_true, skipDigits_eq]
    exact exponent_of_after h
  | whole hpoint h =>
    split
    · exact absurd rfl (hpoint _)
    · exact exponent_of_after h
    · exact exponent_of_after h
    · rename_i hsmall hlarge
      rcases h with ⟨rfl | rfl, -, -⟩ | -
      · exact absurd rfl (hsmall _)
      · exact absurd rfl (hlarge _)
      · rfl

end Skip

/-! ## Words, numbers and strings -/

theorem skipWithin_of_scalar? {text rest : List Char} {v : Json}
    (h : scalar? (skipSpace text) = some (.ok (v, rest))) (depth bound : Nat) :
    skipWithin depth bound text = .ok rest := by
  unfold skipWithin
  generalize skipSpace text = first at h
  unfold scalar? at h
  split at h
  case h_1 | h_2 | h_3 =>
    obtain ⟨after, hword, heq⟩ := exists_of_map_ok (Option.some.inj h)
    cases heq
    exact hword
  case h_4 =>
    obtain ⟨⟨n, after⟩, hnumber, heq⟩ := exists_of_map_ok (Option.some.inj h)
    cases heq
    exact Skip.number_of_number hnumber
  case h_5 =>
    obtain ⟨⟨s, after⟩, hstring, heq⟩ := exists_of_map_ok (Option.some.inj h)
    cases heq
    exact Skip.string_of_string hstring
  case h_6 c more hnull htrue hfalse hminus hquote =>
    split at h
    · rename_i hc
      obtain ⟨⟨n, after⟩, hnumber, heq⟩ := exists_of_map_ok (Option.some.inj h)
      cases heq
      split
      case h_7 heq =>
        cases heq
        rw [if_pos hc, Skip.number_of_number hnumber]
      case h_1 heq => cases heq
      all_goals
        rename_i heq
        cases heq
        cases hc
    · cases h
  case h_7 => cases h

/-! ## Containers -/

namespace Skip

variable {inner : List Char → Except Stop (List Char)} {first : Bool}
  {text part more rest : List Char} {c : Char}

theorem items_end (h : skipSpace text = ']' :: rest) (count : Nat) :
    items inner (count + 1) first text = .ok rest := by
  simp [items, h]

theorem entries_end (h : skipSpace text = '\x7d' :: rest) (count : Nat) :
    entries inner (count + 1) first text = .ok rest := by
  simp [entries, h]

/-- White space before an item is passed over with it. -/
theorem items_of_separates (hspace : ∀ text, inner (skipSpace text) = inner text)
    (h : Separates first text (c :: part)) (hend : c ≠ ']') (hpart : inner (c :: part) = .ok more)
    (count : Nat) : items inner (count + 1) first text = items inner count false more := by
  cases first with
  | true =>
    have htext : skipSpace text = c :: part := h
    simp [items, htext, hpart]
  | false =>
    obtain ⟨after, hcomma, hafter⟩ := h
    rw [← hafter, hspace] at hpart
    simp [items, hcomma, hpart]

theorem entry_skipSpace (text : List Char) : entry inner (skipSpace text) = entry inner text := by
  have hskip : skipSpace (skipSpace text) = skipSpace text := List.dropWhile_idempotent isSpace text
  rw [entry, entry, hskip]

theorem entries_of_separates (h : Separates first text ('"' :: part))
    (hpart : entry inner ('"' :: part) = .ok more) (count : Nat) :
    entries inner (count + 1) first text = entries inner count false more := by
  cases first with
  | true =>
    have htext : skipSpace text = '"' :: part := h
    simp [entries, htext, hpart]
  | false =>
    obtain ⟨after, hcomma, hafter⟩ := h
    rw [← hafter, entry_skipSpace] at hpart
    simp [entries, hcomma, hpart]

end Skip

/-! ## Values -/

/-- Passes over a phrase; `count` bounds the parts of a container. -/
def Phrase.skipWithin (depth bound count : Nat) : Phrase → List Char → Except Stop (List Char)
  | value _ => Json.skipWithin depth bound
  | items first _ => Skip.items (Json.skipWithin depth bound) count first
  | entry _ _ => Skip.entry (Json.skipWithin depth bound)
  | entries first _ => Skip.entries (Json.skipWithin depth bound) count first

/-- A phrase nests no deeper and has no more parts than it has characters. -/
theorem phrase_skipWithin {phrase : Phrase} {text rest : List Char} (h : Spells phrase text rest)
    {depth bound count : Nat} (hdepth : text.length ≤ depth) (hbound : text.length ≤ bound)
    (hcount : text.length ≤ count) : phrase.skipWithin depth bound count text = .ok rest := by
  induction h generalizing depth count with
  | scalar h =>
    obtain ⟨c, more, rfl, hspace, -⟩ := exists_of_scalar? h
    rw [← skipSpace_cons hspace more] at h
    exact skipWithin_of_scalar? h depth bound
  | array _ ih =>
    obtain ⟨depth, rfl⟩ := Nat.exists_eq_add_of_le' (Nat.le_trans (Nat.succ_pos _) hdepth)
    have hinside := Nat.le_of_succ_le hbound
    have hitems := ih (Nat.le_of_succ_le_succ hdepth) hinside hinside
    exact (skipWithin_list (skipSpace_cons rfl _)).trans hitems
  | object _ ih =>
    obtain ⟨depth, rfl⟩ := Nat.exists_eq_add_of_le' (Nat.le_trans (Nat.succ_pos _) hdepth)
    have hinside := Nat.le_of_succ_le hbound
    have hentries := ih (Nat.le_of_succ_le_succ hdepth) hinside hinside
    exact (skipWithin_object (skipSpace_cons rfl _)).trans hentries
  | endItems h =>
    have hlength := length_lt_of_skipSpace h
    obtain ⟨count, rfl⟩ : ∃ n, count = n + 1 := ⟨count - 1, by omega⟩
    exact Skip.items_end h count
  | @items first v vs text item more rest hitem hv _ ihv ihvs =>
    have hitemLength := hitem.length
    have hmoreLength := hv.length_lt
    obtain ⟨count, rfl⟩ : ∃ n, count = n + 1 := ⟨count - 1, by omega⟩
    have hvalue : skipWithin depth bound item = .ok more :=
      ihv (by omega) (by omega) (Nat.le_refl _)
    obtain ⟨c, chars, rfl, -, hend⟩ := hv.exists_of_value
    exact (Skip.items_of_separates (skipWithin_skipSpace depth bound) hitem hend hvalue count).trans
      (ihvs (by omega) (by omega) (by omega))
  | @entry key v name more text rest hkey hcolon hv ih =>
    have hnameLength := Lexeme.string_length hkey
    have hmoreLength := length_lt_of_skipSpace hcolon
    have htextLength := skipSpace_length text
    rw [List.length_cons] at hdepth hbound
    have hvalue : skipWithin depth bound (skipSpace text) = .ok rest :=
      ih (by omega) (by omega) (Nat.le_refl _)
    rw [skipWithin_skipSpace] at hvalue
    simp [Phrase.skipWithin, Skip.entry, skipSpace_cons, isSpace, Skip.string_of_string hkey,
      Container.colon_of_skipSpace hcolon, hvalue]
  | endEntries h =>
    have hlength := length_lt_of_skipSpace h
    obtain ⟨count, rfl⟩ : ∃ n, count = n + 1 := ⟨count - 1, by omega⟩
    exact Skip.entries_end h count
  | @entries first key v es text item more rest hitem hv _ ihv ihes =>
    have hitemLength := hitem.length
    have hmoreLength := hv.length_lt
    obtain ⟨count, rfl⟩ : ∃ n, count = n + 1 := ⟨count - 1, by omega⟩
    have hentry : Skip.entry (skipWithin depth bound) item = .ok more :=
      ihv (by omega) (by omega) (Nat.le_refl _)
    obtain ⟨name, rfl⟩ : ∃ name, item = '"' :: name := by
      cases hv
      exact ⟨_, rfl⟩
    exact (Skip.entries_of_separates hitem hentry count).trans
      (ihes (by omega) (by omega) (by omega))

/-- Whatever is spelled can be passed over, however deep it is. -/
theorem skip_of_spells {v : Json} {text rest : List Char}
    (h : Spells (.value v) (skipSpace text) rest) {bound : Nat} (hbound : text.length ≤ bound) :
    skip bound text = .ok rest := by
  have hlength : (skipSpace text).length ≤ bound := Nat.le_trans (skipSpace_length text) hbound
  have hskip := phrase_skipWithin h hlength hlength hlength
  rw [Phrase.skipWithin, skipWithin_skipSpace] at hskip
  exact hskip

/-- So a field that is not known is passed over, whatever its value. -/
theorem unknownField_of_spells {v : Json} {more text rest : List Char}
    (hcolon : skipSpace more = ':' :: text) (h : Spells (.value v) (skipSpace text) rest)
    {bound : Nat} (hbound : text.length ≤ bound) : unknownField bound more = .ok rest := by
  rw [unknownField, Container.colon_of_skipSpace hcolon, ok_bind, skip_of_spells h hbound]

end MessageHarvest.Json
