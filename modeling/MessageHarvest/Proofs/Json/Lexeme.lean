import Mathlib.Data.List.Forall2
import MessageHarvest.Json.Read
import MessageHarvest.Json.Write

/-!
# Words, numbers and strings are read back

What is written for a string or a natural number is read as that string or number, and reading stops
behind it. Whatever else is read, less of the text is left than before.

* `Lexeme.string_append`: a string is read from any spelling of its characters, with or without
  escapes, whatever follows.
* `Lexeme.number_append`: a natural number of 64 bits is read back from its digits, if what follows
  does not go on with a number (`EndsNumber`).
* `scalar?_cases`, `scalar?_length`: what a word, a number or a string is read from, and that each
  takes at least a character.
-/

namespace MessageHarvest.Json

/-- A text that does not go on with a number: it begins neither with a digit nor with the sign of a
fraction or an exponent. -/
def EndsNumber (rest : List Char) : Prop :=
  ∀ c ∈ rest.head?, c.isDigit = false ∧ c ≠ '.' ∧ c ≠ 'e' ∧ c ≠ 'E'

namespace Lexeme

/-! ## Strings -/

/-- What may stand for a character inside a string: the character itself, a backslash and a letter,
or its code. A character beyond 16 bits has the codes of two surrogates. -/
inductive CharSpelling : Char → List Char → Prop where
  | plain {c : Char} (hquote : c ≠ '"') (hslash : c ≠ '\\') (hcontrol : ¬ c.toNat < 0x20) :
      CharSpelling c [c]
  | letter {c letter : Char} (h : letterEscape? letter = some c) : CharSpelling c ['\\', letter]
  | code {c x y z w : Char} (h : hexValue? x y z w = some c.toNat) :
      CharSpelling c ['\\', 'u', x, y, z, w]
  | pair {high low : Nat} {x y z w x' y' z' w' : Char} (hhigh : hexValue? x y z w = some high)
      (hlow : hexValue? x' y' z' w' = some low) (hfirst : isHighSurrogate high = true)
      (hsecond : isLowSurrogate low = true) :
      CharSpelling (pairedChar high low) ['\\', 'u', x, y, z, w, '\\', 'u', x', y', z', w']

/-- No character has the code of a surrogate. -/
theorem not_surrogate (c : Char) :
    isLowSurrogate c.toNat = false ∧ isHighSurrogate c.toNat = false := by
  have hvalid : c.toNat < 0xD800 ∨ 0xDFFF < c.toNat ∧ c.toNat < 0x110000 := c.valid
  simp only [isLowSurrogate, isHighSurrogate, Bool.and_eq_false_iff, decide_eq_false_iff_not]
  omega

theorem escape_code {c x y z w : Char} (h : hexValue? x y z w = some c.toNat) (rest : List Char) :
    escape ('u' :: x :: y :: z :: w :: rest) = .ok (c, rest) := by
  obtain ⟨hlow, hhigh⟩ := not_surrogate c
  simp [escape, codeEscape, hex, h, hlow, hhigh]

theorem escape_pair {high low : Nat} {x y z w x' y' z' w' : Char}
    (hhigh : hexValue? x y z w = some high) (hlow : hexValue? x' y' z' w' = some low)
    (hfirst : isHighSurrogate high = true) (hsecond : isLowSurrogate low = true)
    (rest : List Char) :
    escape ('u' :: x :: y :: z :: w :: '\\' :: 'u' :: x' :: y' :: z' :: w' :: rest) =
      .ok (pairedChar high low, rest) := by
  have hnot : isLowSurrogate high = false := by
    simp only [isHighSurrogate, isLowSurrogate, Bool.and_eq_true, Bool.and_eq_false_iff,
      decide_eq_true_eq, decide_eq_false_iff_not] at hfirst ⊢
    omega
  simp [escape, codeEscape, lowSurrogate, hex, hhigh, hlow, hnot, hfirst, hsecond]

theorem escape_letter {c letter : Char} (h : letterEscape? letter = some c) (rest : List Char) :
    escape (letter :: rest) = .ok (c, rest) := by
  have hu : letter ≠ 'u' := by
    rintro rfl
    cases h
  simp [escape, hu, h]

theorem stringChars_escape {escaped rest : List Char} {c : Char}
    (h : escape escaped = .ok (c, rest)) (done : List Char) :
    stringChars done ('\\' :: escaped) = stringChars (c :: done) rest := by
  rw [stringChars]
  split
  · rename_i e he
    rw [h] at he
    cases he
  · rename_i d r he
    rw [h] at he
    cases he
    rfl

theorem stringChars_plain {c : Char} (hquote : c ≠ '"') (hslash : c ≠ '\\')
    (hcontrol : ¬ c.toNat < 0x20) (done rest : List Char) :
    stringChars done (c :: rest) = stringChars (c :: done) rest := by
  rw [stringChars]
  · simp [hcontrol]
  · exact hquote
  · exact hslash

/-- Whatever stands for a character is read as it. -/
theorem stringChars_spelling {c : Char} {chars : List Char} (h : CharSpelling c chars)
    (done rest : List Char) : stringChars done (chars ++ rest) = stringChars (c :: done) rest := by
  cases h with
  | plain hquote hslash hcontrol => exact stringChars_plain hquote hslash hcontrol done rest
  | letter h => exact stringChars_escape (escape_letter h rest) done
  | code h => exact stringChars_escape (escape_code h rest) done
  | pair hhigh hlow hfirst hsecond =>
    exact stringChars_escape (escape_pair hhigh hlow hfirst hsecond rest) done

theorem stringChars_append {cs : List Char} {parts : List (List Char)}
    (h : List.Forall₂ CharSpelling cs parts) (done rest : List Char) :
    stringChars done (parts.flatten ++ '"' :: rest) = .ok (done.reverse ++ cs, rest) := by
  induction h generalizing done with
  | nil => simp [stringChars]
  | cons hc _ ih =>
    rw [List.flatten_cons, List.append_assoc, stringChars_spelling hc, ih]
    simp

/-- A string is read from any spelling of its characters. -/
theorem string_append {text : String} {parts : List (List Char)}
    (h : List.Forall₂ CharSpelling text.toList parts) (rest : List Char) :
    string (parts.flatten ++ '"' :: rest) = .ok (text, rest) := by
  rw [string, stringChars_append h]
  simp

theorem hexValue?_control : ∀ n < 0x20,
    hexValue? '0' '0' (Nat.digitChar (n / 16)) (Nat.digitChar (n % 16)) = some n := by
  decide

/-- A character is written as an escape that stands for it, or as itself. -/
theorem charSpelling_stringChar (c : Char) : CharSpelling c (stringChar c) := by
  by_cases hletter : c = '"' ∨ c = '\\' ∨ c = '\x08' ∨ c = '\x0c' ∨ c = '\n' ∨ c = '\r' ∨ c = '\t'
  · rcases hletter with rfl | rfl | rfl | rfl | rfl | rfl | rfl <;> exact .letter rfl
  · simp only [not_or] at hletter
    by_cases hcontrol : c.toNat < 0x20
    · have hcode := CharSpelling.code (hexValue?_control _ hcontrol)
      simpa [stringChar, hletter, hcontrol] using hcode
    · have hplain := CharSpelling.plain hletter.1 hletter.2.1 hcontrol
      simpa [stringChar, hletter, hcontrol] using hplain

theorem forall₂_stringChar (cs : List Char) :
    List.Forall₂ CharSpelling cs (cs.map stringChar) :=
  List.forall₂_map_right_iff.mpr (List.forall₂_same.mpr fun c _ => charSpelling_stringChar c)

/-! ## Natural numbers -/

theorem digit?_digitChar {d : Nat} (h : d < 10) : digit? (Nat.digitChar d) = some d := by
  have hall : ∀ d < 10, digit? (Nat.digitChar d) = some d := by decide
  exact hall d h

theorem digit?_of_endsNumber {c : Char} {rest : List Char} (h : EndsNumber (c :: rest)) :
    digit? c = none := by
  simp [digit?, (h c rfl).1]

/-- The digits of a number in 64 bits are taken one after the other. The first of them is not zero.
-/
theorem exists_toDigits_absorb {n : Nat} (hpos : 0 < n) (hn : n < wordBound) :
    ∃ c d cs, Nat.toDigits 10 n = c :: cs ∧ digit? c = some d ∧ d ≠ 0 ∧
      ∀ taken rest, absorb d taken (cs ++ rest) = absorb n (taken + cs.length) rest := by
  induction n using Nat.strongRecOn with
  | ind n ih =>
    by_cases hsmall : n < 10
    · exact ⟨_, n, [], Nat.toDigits_of_lt_base hsmall, digit?_digitChar hsmall, by omega,
        fun _ _ => rfl⟩
    · have hlast : n % 10 < 10 := Nat.mod_lt n (by decide)
      have hfront : 0 < n / 10 := by omega
      obtain ⟨c, d, cs, hdigits, hc, hd, habsorb⟩ := ih (n / 10) (by omega) hfront (by omega)
      have happend : Nat.toDigits 10 n = c :: (cs ++ [Nat.digitChar (n % 10)]) := by
        have h := Nat.toDigits_append_toDigits (b := 10) (by decide) hfront hlast
        rw [Nat.toDigits_of_lt_base hlast, hdigits, Nat.div_add_mod] at h
        exact h.symm
      refine ⟨c, d, _, happend, hc, hd, fun taken rest => ?_⟩
      have hwhole : 10 * (n / 10) + n % 10 = n := Nat.div_add_mod n 10
      rw [List.append_assoc, habsorb]
      simp only [List.cons_append, List.nil_append, absorb, digit?_digitChar hlast, hwhole, hn,
        if_true, List.length_append, List.length_singleton]
      rfl

theorem absorb_of_endsNumber {rest : List Char} (h : EndsNumber rest) (n taken : Nat) :
    absorb n taken rest = (n, taken, rest) := by
  cases rest with
  | nil => rfl
  | cons c rest => simp [absorb, digit?_of_endsNumber h]

theorem skipDigits_of_endsNumber {rest : List Char} (h : EndsNumber rest) (count : Nat) :
    skipDigits count rest = (count, rest) := by
  cases rest with
  | nil => rfl
  | cons c rest => simp [skipDigits, (h c rfl).1]

theorem startsWithDigit_of_endsNumber {rest : List Char} (h : EndsNumber rest) :
    startsWithDigit rest = false := by
  cases rest with
  | nil => rfl
  | cons c rest => simp [startsWithDigit, (h c rfl).1]

/-- Digits that are all taken make an integer, where the number ends with them. -/
theorem number_of_absorb {c : Char} {d n taken : Nat} {text rest : List Char}
    (hc : digit? c = some d) (hzero : ¬ (d = 0 ∧ startsWithDigit text = true))
    (habsorb : absorb d 0 text = (n, taken, rest)) (h : EndsNumber rest) :
    number true (c :: text) = .ok (.natural (UInt64.ofNat n), rest) := by
  simp only [number, hc, hzero, if_false, habsorb, skipDigits_of_endsNumber h]
  split
  · exact absurd rfl (h '.' rfl).2.1
  · exact absurd rfl (h 'e' rfl).2.2.1
  · exact absurd rfl (h 'E' rfl).2.2.2
  · rfl

/-- A natural number is read back from its digits. -/
theorem number_append (n : UInt64) {rest : List Char} (h : EndsNumber rest) :
    number true (Nat.toDigits 10 n.toNat ++ rest) = .ok (.natural n, rest) := by
  by_cases hpos : 0 < n.toNat
  · obtain ⟨c, d, cs, hdigits, hc, hd, habsorb⟩ := exists_toDigits_absorb hpos n.toNat_lt
    have hall : absorb d 0 (cs ++ rest) = (n.toNat, 0 + cs.length, rest) := by
      rw [habsorb, absorb_of_endsNumber h]
    have hnumber := number_of_absorb hc (fun hzero => hd hzero.1) hall h
    rw [UInt64.ofNat_toNat] at hnumber
    rw [hdigits]
    exact hnumber
  · obtain rfl : n = 0 := UInt64.toNat_inj.mp (by simpa using hpos)
    have hnone := startsWithDigit_of_endsNumber h
    exact number_of_absorb (d := 0) rfl (by simp [hnone]) (absorb_of_endsNumber h 0 0) h

/-! ## How much is read -/

theorem word_length {letters text rest : List Char} (h : word letters text = .ok rest) :
    rest.length ≤ text.length := by
  induction letters generalizing text with
  | nil =>
    cases h
    exact Nat.le_refl _
  | cons expected more ih =>
    cases text with
    | nil => cases h
    | cons c text =>
      simp only [word] at h
      split at h
      · have := ih h
        rw [List.length_cons]
        omega
      · cases h

theorem stringChars_length {done text chars rest : List Char}
    (h : stringChars done text = .ok (chars, rest)) : rest.length < text.length := by
  fun_induction stringChars done text with
  | case1 => cases h
  | case2 done rest' =>
    cases h
    simp
  | case3 => cases h
  | case4 done rest' c rest'' hescape ih =>
    have := escape_length hescape
    have := ih h
    rw [List.length_cons]
    omega
  | case5 => cases h
  | case6 done c rest' hquote hslash hcontrol ih =>
    have := ih h
    rw [List.length_cons]
    omega

theorem string_length {text rest : List Char} {s : String} (h : string text = .ok (s, rest)) :
    rest.length < text.length := by
  unfold string at h
  split at h
  · cases h
  · rename_i chars r hchars
    cases h
    exact stringChars_length hchars

theorem absorb_length (n taken : Nat) (text : List Char) :
    (absorb n taken text).2.2.length ≤ text.length := by
  induction text generalizing n taken with
  | nil => simp [absorb]
  | cons c rest ih =>
    unfold absorb
    split
    · rename_i d _
      split
      · have := ih (10 * n + d) (taken + 1)
        rw [List.length_cons]
        omega
      · exact Nat.le_refl _
    · exact Nat.le_refl _

theorem skipDigits_length (count : Nat) (text : List Char) :
    (skipDigits count text).2.length ≤ text.length := by
  induction text generalizing count with
  | nil => simp [skipDigits]
  | cons c rest ih =>
    unfold skipDigits
    split
    · have := ih (count + 1)
      rw [List.length_cons]
      omega
    · exact Nat.le_refl _

theorem exponentDigits_length (e : Nat) (text : List Char) :
    (exponentDigits e text).2.length ≤ text.length := by
  induction text generalizing e with
  | nil => simp [exponentDigits]
  | cons c rest ih =>
    unfold exponentDigits
    split
    · rename_i d _
      split
      · have := ih (10 * e + d)
        rw [List.length_cons]
        omega
      · rw [List.length_cons]
        exact Nat.le_succ _
    · exact Nat.le_refl _

variable {positive : Bool} {n : Nat} {base : Int} {text rest : List Char} {x : Number}

theorem float_rest (h : float positive n base text = .ok (x, rest)) : rest = text := by
  unfold float at h
  split at h
  · cases h
    rfl
  · cases h

theorem exponent_length (h : exponent positive n base text = .ok (x, rest)) :
    rest.length ≤ text.length := by
  unfold exponent at h
  split at h
  rename_i raises unsigned hsigned
  have hsign : unsigned.length ≤ text.length := by
    split at hsigned
    · cases hsigned
      exact Nat.le_succ _
    · cases hsigned
      exact Nat.le_succ _
    · cases hsigned
      exact Nat.le_refl _
  split at h
  · cases h
  · rename_i c digits
    rw [List.length_cons] at hsign
    split at h
    · cases h
    · rename_i d _
      have hread := exponentDigits_length d digits
      split at h
      · rename_i e r he
        rw [he] at hread
        rw [float_rest h]
        exact Nat.le_trans hread (Nat.le_of_succ_le hsign)
      · rename_i r he
        rw [he] at hread
        split at h
        · cases h
        · cases h
          have := skipDigits_length 0 r
          dsimp only at hread
          omega

theorem exponent?_length (h : exponent? positive n base text = .ok (x, rest)) :
    rest.length ≤ text.length := by
  unfold exponent? at h
  split at h
  · exact Nat.le_succ_of_le (exponent_length h)
  · exact Nat.le_succ_of_le (exponent_length h)
  · exact Nat.le_of_eq (congrArg List.length (float_rest h))

theorem fraction_length (h : fraction positive n base text = .ok (x, rest)) :
    rest.length ≤ text.length := by
  unfold fraction at h
  split at h
  · exact Nat.le_trans (exponent?_length h)
      (Nat.le_trans (skipDigits_length 0 _) (absorb_length n 0 text))
  · split at h <;> cases h

theorem number_length (h : number positive text = .ok (x, rest)) : rest.length < text.length := by
  unfold number at h
  split at h
  · cases h
  · rename_i c digits
    split at h
    · cases h
    · rename_i d _
      split at h
      · cases h
      · have hdigits : (skipDigits 0 (absorb d 0 digits).2.2).2.length ≤ digits.length :=
          Nat.le_trans (skipDigits_length 0 _) (absorb_length d 0 digits)
        rw [List.length_cons]
        dsimp only at h
        split at h
        · rename_i r hr
          rw [hr, List.length_cons] at hdigits
          have := fraction_length h
          omega
        · rename_i r hr
          rw [hr, List.length_cons] at hdigits
          have := exponent_length h
          omega
        · rename_i r hr
          rw [hr, List.length_cons] at hdigits
          have := exponent_length h
          omega
        · split at h
          · cases h
            exact Nat.lt_succ_of_le hdigits
          · rw [float_rest h]
            exact Nat.lt_succ_of_le hdigits

end Lexeme

/-! ## Words, numbers and strings as values -/

@[simp] theorem ok_bind {ε α β : Type} (a : α) (next : α → Except ε β) :
    Except.ok a >>= next = next a :=
  rfl

theorem exists_of_bind_ok {ε α β : Type} {first : Except ε α} {next : α → Except ε β} {b : β}
    (h : first >>= next = .ok b) : ∃ a, first = .ok a ∧ next a = .ok b := by
  cases first with
  | error e => cases h
  | ok a => exact ⟨a, rfl, h⟩

theorem exists_of_map_ok {α β : Type} {f : α → β} {result : Except Stop α} {b : β}
    (h : f <$> result = .ok b) : ∃ a, result = .ok a ∧ f a = b := by
  cases result with
  | error e => cases h
  | ok a =>
    cases h
    exact ⟨a, rfl, rfl⟩

/-- Neither white space nor the end of a list begins a word, a number or a string. -/
theorem exists_of_scalar? {text : List Char} {result : Except Stop (Json × List Char)}
    (h : scalar? text = some result) :
    ∃ c more, text = c :: more ∧ isSpace c = false ∧ c ≠ ']' := by
  unfold scalar? at h
  split at h
  case h_6 c more _ _ _ _ _ =>
    by_cases hdigit : c.isDigit
    · refine ⟨c, more, rfl, ?_, ?_⟩
      · apply Bool.eq_false_iff.mpr
        intro hspace
        simp only [isSpace, Bool.or_eq_true, decide_eq_true_eq] at hspace
        rcases hspace with ((rfl | rfl) | rfl) | rfl <;> cases hdigit
      · rintro rfl
        cases hdigit
    · simp [hdigit] at h
  case h_7 => cases h
  all_goals exact ⟨_, _, rfl, by decide, by decide⟩

variable {text rest : List Char} {v : Json}

/-- A scalar is a word, a number with or without a sign, or a string. -/
theorem scalar?_cases (h : scalar? text = some (.ok (v, rest))) :
    (∃ c more letters, text = c :: more ∧ Lexeme.word letters more = .ok rest ∧
      (v = .null ∨ ∃ value, v = .bool value)) ∨
    (∃ positive digits n, digits <:+ text ∧ Lexeme.number positive digits = .ok (n, rest) ∧
      v = .number n) ∨
    ∃ chars s, text = '"' :: chars ∧ Lexeme.string chars = .ok (s, rest) ∧ v = .string s := by
  unfold scalar? at h
  split at h
  case h_1 more | h_2 more | h_3 more =>
    obtain ⟨r, hword, hr⟩ := exists_of_map_ok (Option.some.inj h)
    cases hr
    refine .inl ⟨_, more, _, rfl, hword, ?_⟩
    simp
  case h_4 digits =>
    obtain ⟨⟨n, r⟩, hnumber, hr⟩ := exists_of_map_ok (Option.some.inj h)
    cases hr
    exact .inr (.inl ⟨false, digits, n, List.suffix_cons _ _, hnumber, rfl⟩)
  case h_5 chars =>
    obtain ⟨⟨s, r⟩, hstring, hr⟩ := exists_of_map_ok (Option.some.inj h)
    cases hr
    exact .inr (.inr ⟨chars, s, rfl, hstring, rfl⟩)
  case h_6 c more _ _ _ _ _ =>
    split at h
    · obtain ⟨⟨n, r⟩, hnumber, hr⟩ := exists_of_map_ok (Option.some.inj h)
      cases hr
      exact .inr (.inl ⟨true, c :: more, n, List.suffix_rfl, hnumber, rfl⟩)
    · cases h
  case h_7 => cases h

/-- Null is read from its word, and from that nothing else. -/
theorem null_of_scalar? (h : scalar? text = some (.ok (.null, rest))) :
    ∃ more, text = 'n' :: more ∧ Lexeme.word ['u', 'l', 'l'] more = .ok rest := by
  unfold scalar? at h
  split at h
  case h_1 more =>
    obtain ⟨r, hword, hr⟩ := exists_of_map_ok (Option.some.inj h)
    cases hr
    exact ⟨more, rfl, hword⟩
  case h_2 | h_3 | h_4 | h_5 =>
    obtain ⟨r, -, hr⟩ := exists_of_map_ok (Option.some.inj h)
    cases hr
  case h_6 =>
    split at h
    · obtain ⟨r, -, hr⟩ := exists_of_map_ok (Option.some.inj h)
      cases hr
    · cases h
  case h_7 => cases h

theorem eq_null_of_scalar? {more : List Char} (h : scalar? ('n' :: more) = some (.ok (v, rest))) :
    v = .null := by
  obtain ⟨r, -, hr⟩ := exists_of_map_ok (Option.some.inj h)
  cases hr
  rfl

theorem string_of_scalar? {s : String} (h : scalar? text = some (.ok (.string s, rest))) :
    ∃ chars, text = '"' :: chars ∧ Lexeme.string chars = .ok (s, rest) := by
  rcases scalar?_cases h with ⟨-, -, -, -, -, hword | ⟨value, hword⟩⟩ | ⟨-, -, n, -, -, hn⟩ |
    ⟨chars, t, htext, hstring, hs⟩
  · cases hword
  · cases hword
  · cases hn
  · cases hs
    exact ⟨chars, htext, hstring⟩

/-- A number is read from its sign, or from its first digit on. -/
theorem number_of_scalar? {n : Number} (h : scalar? text = some (.ok (.number n, rest))) :
    (∃ more, text = '-' :: more ∧ Lexeme.number false more = .ok (n, rest)) ∨
      ∃ c more, text = c :: more ∧ c.isDigit = true ∧
        Lexeme.number true (c :: more) = .ok (n, rest) := by
  unfold scalar? at h
  split at h
  case h_1 | h_2 | h_3 =>
    obtain ⟨r, -, hr⟩ := exists_of_map_ok (Option.some.inj h)
    cases hr
  case h_4 more =>
    obtain ⟨⟨m, r⟩, hnumber, hr⟩ := exists_of_map_ok (Option.some.inj h)
    cases hr
    exact .inl ⟨more, rfl, hnumber⟩
  case h_5 =>
    obtain ⟨⟨s, r⟩, -, hr⟩ := exists_of_map_ok (Option.some.inj h)
    cases hr
  case h_6 c more _ _ _ _ _ =>
    split at h
    · rename_i hc
      obtain ⟨⟨m, r⟩, hnumber, hr⟩ := exists_of_map_ok (Option.some.inj h)
      cases hr
      exact .inr ⟨c, more, rfl, hc, hnumber⟩
    · cases h
  case h_7 => cases h

theorem scalar?_length (h : scalar? text = some (.ok (v, rest))) : rest.length < text.length := by
  rcases scalar?_cases h with ⟨c, more, letters, rfl, hword, -⟩ | ⟨positive, digits, n, hdigits,
    hnumber, -⟩ | ⟨chars, s, rfl, hstring, -⟩
  · exact Nat.lt_succ_of_le (Lexeme.word_length hword)
  · exact Nat.lt_of_lt_of_le (Lexeme.number_length hnumber) hdigits.length_le
  · exact Nat.lt_succ_of_lt (Lexeme.string_length hstring)

theorem scalar?_depth (h : scalar? text = some (.ok (v, rest))) : v.depth = 0 := by
  rcases scalar?_cases h with ⟨-, -, -, -, -, rfl | ⟨value, rfl⟩⟩ | ⟨-, -, n, -, -, rfl⟩ |
    ⟨-, s, -, -, rfl⟩
  all_goals rfl

/-- What begins with a digit is read as a number. -/
theorem scalar?_digit {c : Char} (hc : c.isDigit = true) (more : List Char) :
    scalar? (c :: more) =
      some ((fun (n, rest) => (Json.number n, rest)) <$> Lexeme.number true (c :: more)) := by
  unfold scalar?
  split
  case h_6 c' more' _ _ _ _ _ heq =>
    cases heq
    simp only [hc, if_true]
  case h_7 heq => cases heq
  all_goals
    rename_i heq
    cases heq
    cases hc

theorem scalar?_natural (n : UInt64) (h : EndsNumber rest) :
    scalar? (Nat.toDigits 10 n.toNat ++ rest) = some (.ok (.number (.natural n), rest)) := by
  have hne : Nat.toDigits 10 n.toNat ≠ [] := Nat.toDigits_ne_nil
  obtain ⟨c, cs, hdigits⟩ := List.exists_cons_of_ne_nil hne
  have hc : c.isDigit = true := by
    have hmem : c ∈ Nat.toDigits 10 n.toNat := by simp [hdigits]
    exact Nat.isDigit_of_mem_toDigits (by decide) (by decide) hmem
  have hnumber := Lexeme.number_append n h
  rw [hdigits] at hnumber ⊢
  rw [List.cons_append, scalar?_digit hc]
  rw [List.cons_append] at hnumber
  rw [hnumber]
  rfl

theorem scalar?_string {text : String} {parts : List (List Char)}
    (h : List.Forall₂ Lexeme.CharSpelling text.toList parts) (rest : List Char) :
    scalar? ('"' :: (parts.flatten ++ '"' :: rest)) = some (.ok (.string text, rest)) := by
  simp only [scalar?, Lexeme.string_append h rest]
  rfl

end MessageHarvest.Json
