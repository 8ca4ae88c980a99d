import MessageHarvest.Text.Quoted
import Mathlib.Data.List.Basic

/-!
# Reading quoted text

The written form of a character tells the character and where the form ends. So a quoted text stands
for one text only, and whatever the text is, its quoted form has no control character in it.

* `Text.readEscaped_escapeChar`: the character at the beginning of a written text is got back.
* `Text.quotedChars_inj`: two texts with one quoted form are the same.
* `Text.space_le_of_mem_quotedChars`: no character of a quoted text comes before the blank.
-/

namespace MessageHarvest.Text

/-! ## Code points in hexadecimal -/

def digitValue (c : Char) : Nat :=
  if c.isDigit then c.toNat - '0'.toNat else c.toNat - 'a'.toNat + 10

theorem digitValue_digitChar {d : Nat} (hd : d < 16) : digitValue (Nat.digitChar d) = d := by
  decide +revert

/-- The number that hexadecimal digits stand for. -/
def hexNumber (digits : List Char) : Nat :=
  digits.foldl (fun n c => 16 * n + digitValue c) 0

theorem hexNumber_toDigits (n : Nat) : hexNumber (Nat.toDigits 16 n) = n := by
  induction n using Nat.strongRecOn with
  | ind n ih =>
    rcases Nat.lt_or_ge n 16 with hsmall | hlarge
    · simp [hexNumber, Nat.toDigits_of_lt_base hsmall, digitValue_digitChar hsmall]
    · have hlast : n % 16 < 16 := Nat.mod_lt n (by decide)
      rw [Nat.toDigits_of_base_le (by decide) hlarge, hexNumber, List.foldl_append, ← hexNumber,
        ih _ (by omega), List.foldl_cons, List.foldl_nil, digitValue_digitChar hlast]
      omega

theorem exists_digitChar_of_mem_toDigits {n : Nat} {c : Char} (h : c ∈ Nat.toDigits 16 n) :
    ∃ d < 16, c = Nat.digitChar d := by
  induction n using Nat.strongRecOn with
  | ind n ih =>
    rcases Nat.lt_or_ge n 16 with hsmall | hlarge
    · rw [Nat.toDigits_of_lt_base hsmall, List.mem_singleton] at h
      exact ⟨n, hsmall, h⟩
    · rw [Nat.toDigits_of_base_le (by decide) hlarge, List.mem_append, List.mem_singleton] at h
      rcases h with hfront | hlast
      · exact ih _ (by omega) hfront
      · exact ⟨_, Nat.mod_lt n (by decide), hlast⟩

/-! ## Reading a written character -/

/-- What a letter behind a backslash stands for; the marks stand for themselves. -/
def letterMeaning : Char → Char
  | '0' => '\x00'
  | 't' => '\t'
  | 'r' => '\r'
  | 'n' => '\n'
  | mark => mark

/-- The character whose written form a text begins with, and the rest of the text. -/
def readEscaped : List Char → Option (Char × List Char)
  | '\\' :: 'u' :: _ :: rest =>
    some (Char.ofNat (hexNumber (rest.takeWhile (· ≠ '\x7d'))),
      (rest.dropWhile (· ≠ '\x7d')).tail)
  | '\\' :: letter :: rest => some (letterMeaning letter, rest)
  | c :: rest => some (c, rest)
  | [] => none

theorem readEscaped_codePointEscape (c : Char) (rest : List Char) :
    readEscaped (codePointEscape c ++ rest) = some (c, rest) := by
  have hdigits : ∀ d ∈ Nat.toDigits 16 c.toNat, decide (d ≠ '\x7d') := by
    intro d hd
    obtain ⟨n, -, rfl⟩ := exists_digitChar_of_mem_toDigits hd
    exact decide_eq_true (Nat.digitChar_ne '\x7d' (by decide))
  have hform : codePointEscape c ++ rest =
      '\\' :: 'u' :: '\x7b' :: (Nat.toDigits 16 c.toNat ++ '\x7d' :: rest) := by
    simp [codePointEscape]
  rw [hform, readEscaped, List.takeWhile_append_of_pos hdigits,
    List.dropWhile_append_of_pos hdigits]
  simp [hexNumber_toDigits]

/-- Reading gives back what was written, whatever comes behind it. -/
theorem readEscaped_escapeChar (c : Char) (rest : List Char) :
    readEscaped (escapeChar c ++ rest) = some (c, rest) := by
  unfold escapeChar
  split_ifs with hzero htab hreturn hbreak hbackslash hquote hinvisible
  · rw [hzero]; rfl
  · rw [htab]; rfl
  · rw [hreturn]; rfl
  · rw [hbreak]; rfl
  · rw [hbackslash]; rfl
  · rw [hquote]; rfl
  · exact readEscaped_codePointEscape c rest
  · simp [readEscaped, hbackslash]

theorem escapeChar_append_inj {c d : Char} {s t : List Char}
    (h : escapeChar c ++ s = escapeChar d ++ t) : c = d ∧ s = t := by
  have hread := congrArg readEscaped h
  rw [readEscaped_escapeChar, readEscaped_escapeChar, Option.some_inj, Prod.mk.injEq] at hread
  exact hread

theorem escapeChar_ne_nil (c : Char) : escapeChar c ≠ [] := by
  intro h
  have hread := readEscaped_escapeChar c []
  rw [h] at hread
  cases hread

/-! ## Whole texts -/

theorem flatMap_escapeChar_inj {s t : List Char}
    (h : s.flatMap escapeChar = t.flatMap escapeChar) : s = t := by
  induction s generalizing t with
  | nil =>
    cases t with
    | nil => rfl
    | cons d t => exact absurd (List.append_eq_nil_iff.mp h.symm).1 (escapeChar_ne_nil d)
  | cons c s ih =>
    cases t with
    | nil => exact absurd (List.append_eq_nil_iff.mp h).1 (escapeChar_ne_nil c)
    | cons d t =>
      obtain ⟨rfl, hrest⟩ := escapeChar_append_inj h
      rw [ih hrest]

theorem quotedChars_inj {s t : List Char} (h : quotedChars s = quotedChars t) : s = t := by
  rw [quotedChars, quotedChars, List.cons_append, List.cons_append, List.cons_inj_right,
    List.append_left_inj] at h
  exact flatMap_escapeChar_inj h

/-! ## Control characters -/

theorem space_le_of_mem_codePointEscape {c d : Char} (h : d ∈ codePointEscape c) :
    0x20 ≤ d.toNat := by
  have hbefore : ∀ d ∈ ['\\', 'u', '\x7b'], 0x20 ≤ d.toNat := by
    simp only [List.forall_mem_cons]
    exact ⟨by decide, by decide, by decide, List.forall_mem_nil _⟩
  have hdigit : ∀ n < 16, 0x20 ≤ (Nat.digitChar n).toNat := by decide
  rw [codePointEscape, List.mem_append, List.mem_append, List.mem_singleton] at h
  rcases h with (hfront | hmem) | rfl
  · exact hbefore d hfront
  · obtain ⟨n, hn, rfl⟩ := exists_digitChar_of_mem_toDigits hmem
    exact hdigit n hn
  · decide

theorem space_le_of_mem_escapeChar {c d : Char} (h : d ∈ escapeChar c) : 0x20 ≤ d.toNat := by
  have hpair : ∀ letter : Char, 0x20 ≤ letter.toNat → d ∈ ['\\', letter] → 0x20 ≤ d.toNat := by
    rintro letter hletter hd
    rw [List.mem_cons, List.mem_singleton] at hd
    rcases hd with rfl | rfl
    · decide
    · exact hletter
  unfold escapeChar at h
  split_ifs at h with hzero htab hreturn hbreak hbackslash hquote hinvisible
  · exact hpair _ (by decide) h
  · exact hpair _ (by decide) h
  · exact hpair _ (by decide) h
  · exact hpair _ (by decide) h
  · exact hpair _ (by decide) h
  · exact hpair _ (by decide) h
  · exact space_le_of_mem_codePointEscape h
  · -- a character that is left as it is can be seen
    rw [List.mem_singleton.mp h]
    by_contra hlow
    exact hinvisible (isInvisible_of_lt_space (Nat.lt_of_not_le hlow))

theorem space_le_of_mem_quotedChars {text : List Char} {d : Char} (h : d ∈ quotedChars text) :
    0x20 ≤ d.toNat := by
  rw [quotedChars, List.mem_append, List.mem_cons, List.mem_flatMap, List.mem_singleton] at h
  rcases h with (rfl | ⟨c, -, hd⟩) | rfl
  · decide
  · exact space_le_of_mem_escapeChar hd
  · decide

/-- No quoted text has a given control character in it. -/
theorem notMem_quotedChars {d : Char} (hd : d.toNat < 0x20) (text : List Char) :
    d ∉ quotedChars text :=
  fun h => absurd (space_le_of_mem_quotedChars h) (Nat.not_le_of_lt hd)

end MessageHarvest.Text
