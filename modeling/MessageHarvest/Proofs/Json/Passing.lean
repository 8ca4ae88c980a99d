import MessageHarvest.Proofs.Json.Depth

/-!
# What is read can be passed over

A field that is not known is passed over without being read. `Json.Passes` says of a reader that the
values it reads end where they would end if they were passed over, so that the names of the fields
of a record can be told without reading any of their values.

* `Json.recordNames` gives the names of the fields of a record, in either form.
* `passes_texts`, `passes_caseName`: lists of strings and names of cases can be passed over.
* `Container.foldEntries_simulates`: two folds over the entries of one object go along together.
-/

namespace MessageHarvest.Json

/-- Whatever the reader reads ends where it would end if it were passed over. -/
def Passes {α : Type} (bound : Nat) (reader : Reader α) : Prop :=
  ∀ text a rest, reader text = .ok (a, rest) → skip bound text = .ok rest

/-! ## Strings -/

namespace Skip

theorem string_backslash {escaped rest : List Char} (h : escape escaped = .ok rest) :
    string ('\\' :: escaped) = string rest := by
  rw [string]
  split
  · rename_i e he
    rw [h] at he
    cases he
  · rename_i r he
    rw [h] at he
    cases he
    rfl

theorem escape_code {text rest : List Char} {n : Nat} (h : Lexeme.hex text = .ok (n, rest)) :
    escape ('u' :: text) = .ok rest := by
  simp [escape, h, Functor.map, Except.map]

/-- What is read as the second half of a pair is passed over as an escape of its own. -/
theorem string_lowSurrogate {high : Nat} {text rest : List Char} {c : Char}
    (h : Lexeme.lowSurrogate high text = .ok (c, rest)) : string text = string rest := by
  unfold Lexeme.lowSurrogate at h
  split at h
  · cases h
  · cases h
  · split at h
    · cases h
    · rename_i hhex
      split at h
      · obtain ⟨-, rfl⟩ := Prod.mk.inj (Except.ok.inj h)
        exact string_backslash (escape_code hhex)
      · cases h
  · cases h
  · cases h

/-- An escape that is read can be passed over, up to the second half of a pair. -/
theorem string_escape {text rest : List Char} {c : Char}
    (h : Lexeme.escape text = .ok (c, rest)) : string ('\\' :: text) = string rest := by
  unfold Lexeme.escape at h
  split at h
  · cases h
  · rename_i letter more
    split at h
    · rename_i hu
      rw [hu]
      unfold Lexeme.codeEscape at h
      split at h
      · cases h
      · rename_i hhex
        rw [string_backslash (escape_code hhex)]
        split at h
        · cases h
        · split at h
          · exact string_lowSurrogate h
          · cases h
            rfl
    · rename_i hu
      split at h
      · rename_i hletter
        cases h
        apply string_backslash
        rw [escape, if_neg hu, if_pos (by rw [hletter]; rfl)]
      · cases h

/-- A string that is read can be passed over. -/
theorem string_of_stringChars {done text chars rest : List Char}
    (h : Lexeme.stringChars done text = .ok (chars, rest)) : string text = .ok rest := by
  fun_induction Lexeme.stringChars done text with
  | case1 => cases h
  | case2 done rest' =>
    cases h
    rw [string]
  | case3 => cases h
  | case4 done rest' c rest'' hescape ih =>
    rw [string_escape hescape]
    exact ih h
  | case5 => cases h
  | case6 done c rest' hquote hslash hcontrol ih =>
    rw [string, if_neg hcontrol]
    · exact ih h
    · exact hquote
    · exact hslash

theorem string_of_string {text rest : List Char} {s : String}
    (h : Lexeme.string text = .ok (s, rest)) : string text = .ok rest := by
  unfold Lexeme.string at h
  split at h
  · cases h
  · rename_i hchars
    cases h
    exact string_of_stringChars hchars

end Skip

/-! ## Values -/

section

variable {depth bound : Nat} {text rest : List Char}

theorem skipWithin_skipSpace (depth bound : Nat) (text : List Char) :
    skipWithin depth bound (skipSpace text) = skipWithin depth bound text := by
  have hskip : skipSpace (skipSpace text) = skipSpace text := List.dropWhile_idempotent isSpace text
  rw [skipWithin, skipWithin, hskip]

theorem skipWithin_quote (h : skipSpace text = '"' :: rest) :
    skipWithin depth bound text = Skip.string rest := by
  simp [skipWithin, h]

theorem skipWithin_null (h : skipSpace text = 'n' :: rest) :
    skipWithin depth bound text = Lexeme.word ['u', 'l', 'l'] rest := by
  simp [skipWithin, h]

theorem skipWithin_list (h : skipSpace text = '[' :: rest) :
    skipWithin (depth + 1) bound text = Skip.items (skipWithin depth bound) bound true rest := by
  simp [skipWithin, h]

theorem skipWithin_object (h : skipSpace text = '\x7b' :: rest) :
    skipWithin (depth + 1) bound text = Skip.entries (skipWithin depth bound) bound true rest := by
  simp [skipWithin, h]

end

/-! ## Readers -/

/-- Where a value is not what is expected nothing is read. -/
theorem mismatch_ne_ok {α : Type} {expected : String} {text rest : List Char} {a : α} :
    mismatch expected text ≠ .ok (a, rest) :=
  mismatch_ensures (fun _ => False) expected text a rest

theorem exists_of_textAs {expected : String} {text rest : List Char} {s : String}
    (h : textAs expected text = .ok (s, rest)) :
    ∃ more, skipSpace text = '"' :: more ∧ Lexeme.string more = .ok (s, rest) := by
  unfold textAs at h
  split at h
  · exact ⟨_, by assumption, h⟩
  · exact absurd h mismatch_ne_ok

theorem skipWithin_of_textAs {expected : String} {text rest : List Char} {s : String}
    (h : textAs expected text = .ok (s, rest)) (depth bound : Nat) :
    skipWithin depth bound text = .ok rest := by
  obtain ⟨more, hquote, hstring⟩ := exists_of_textAs h
  rw [skipWithin_quote hquote, Skip.string_of_string hstring]

/-! ## Lists -/

namespace Container

/-- There is no further item just before the end of a list. -/
theorem nextItem?_eq_none_iff {first : Bool} {text : List Char} :
    nextItem? first text = .ok none ↔ ∃ rest, skipSpace text = ']' :: rest := by
  unfold nextItem?
  constructor
  · intro h
    split at h
    · cases h
    · rename_i rest heq
      exact ⟨rest, heq⟩
    · split at h
      · cases h
      · split at h
        · split at h <;> cases h
        · cases h
  · rintro ⟨rest, heq⟩
    rw [heq]
    rfl

/-- Behind the last item there is none, whichever it would be. -/
theorem nextItem?_eq_none {first : Bool} {text : List Char} (h : nextItem? first text = .ok none)
    (other : Bool) : nextItem? other text = .ok none :=
  nextItem?_eq_none_iff.mpr (nextItem?_eq_none_iff.mp h)

/-- The first item begins where the list does, each other one behind a comma. -/
theorem exists_of_nextItem? {first : Bool} {text item : List Char}
    (h : nextItem? first text = .ok (some item)) :
    ∃ c rest, skipSpace text = c :: rest ∧ c ≠ ']' ∧
      (first = true ∧ item = c :: rest ∨ first = false ∧ c = ',' ∧ item = skipSpace rest) := by
  unfold nextItem? at h
  split at h
  · cases h
  · cases h
  · rename_i c rest hend heq
    cases first with
    | true =>
      cases h
      exact ⟨c, rest, heq, hend, .inl ⟨rfl, rfl⟩⟩
    | false =>
      rw [if_neg Bool.false_ne_true] at h
      split at h
      · split at h
        · cases h
        · cases h
        · cases h
          exact ⟨c, rest, heq, hend, .inr ⟨rfl, by assumption, rfl⟩⟩
      · cases h

end Container

/-- A list of which the items can be passed over can be passed over. -/
theorem items_of_foldItems {σ : Type} {step : σ → Reader σ} {depth bound : Nat}
    (hstep : ∀ state text next rest, step state text = .ok (next, rest) →
      skipWithin depth bound text = .ok rest)
    {count : Nat} {first : Bool} {state next : σ} {text rest : List Char}
    (h : Container.foldItems step count first state text = .ok (next, rest)) :
    Skip.items (skipWithin depth bound) count first text = .ok rest := by
  induction count generalizing first state text with
  | zero => cases h
  | succ count ih =>
    cases hnext : Container.nextItem? first text with
    | error e =>
      rw [Container.foldItems, hnext] at h
      cases h
    | ok next? =>
      cases next? with
      | none =>
        obtain ⟨after, hend⟩ := Container.nextItem?_eq_none_iff.mp hnext
        rw [Container.foldItems_none hend] at h
        cases h
        simp [Skip.items, hend]
      | some item =>
        rw [Container.foldItems_some hnext] at h
        obtain ⟨⟨middle, after⟩, hitem, hmore⟩ := exists_of_bind_ok h
        have hpassed := hstep state item middle after hitem
        have hrest := ih hmore
        obtain ⟨c, more, hskip, hne, hcases⟩ := Container.exists_of_nextItem? hnext
        unfold Skip.items
        rw [hskip]
        split
        · contradiction
        · rename_i heq
          exact absurd (List.cons.inj heq).1 hne
        · rename_i heq
          cases heq
          rcases hcases with ⟨rfl, rfl⟩ | ⟨rfl, rfl, rfl⟩
          · rw [if_pos rfl, hpassed, ok_bind, hrest]
          · rw [skipWithin_skipSpace] at hpassed
            rw [if_neg Bool.false_ne_true, if_pos rfl, hpassed, ok_bind, hrest]

theorem passes_texts {bound : Nat} : Passes (bound + 1) (texts (bound + 1)) := by
  intro text ss rest h
  unfold texts at h
  split at h
  · rename_i more hlist
    obtain ⟨⟨done, after⟩, hfold, heq⟩ := exists_of_map_ok h
    obtain ⟨-, rfl⟩ := Prod.mk.inj heq
    rw [skip, skipWithin_list hlist]
    refine items_of_foldItems (fun state item next after hitem => ?_) hfold
    obtain ⟨⟨s, left⟩, hs, hnext⟩ := exists_of_bind_ok hitem
    cases hnext
    exact skipWithin_of_textAs hs _ _
  · exact absurd h mismatch_ne_ok

/-! ## Names of cases -/

theorem textAs_of_variant {known : List String} {text rest : List Char} {name : String}
    (h : variant known text = .ok (name, rest)) :
    textAs "variant identifier" text = .ok (name, rest) := by
  obtain ⟨⟨s, more⟩, htext, hknown⟩ := exists_of_bind_ok h
  dsimp only at hknown
  split at hknown
  · cases hknown
    exact htext
  · cases hknown

theorem exists_of_unit {text rest : List Char} (h : unit text = .ok ((), rest)) :
    ∃ more, skipSpace text = 'n' :: more ∧ Lexeme.word ['u', 'l', 'l'] more = .ok rest := by
  unfold unit at h
  split at h
  · obtain ⟨after, hword, heq⟩ := exists_of_map_ok h
    cases heq
    exact ⟨_, by assumption, hword⟩
  · exact absurd h mismatch_ne_ok

theorem skipSpace_of_nextKey? {text key : List Char}
    (h : Container.nextKey? true text = .ok (some key)) : skipSpace text = '"' :: key := by
  unfold Container.nextKey? at h
  split at h
  · cases h
  · cases h
  · rename_i heq
    rw [if_pos rfl] at h
    split at h
    · rename_i hc
      cases h
      rw [heq, hc]
    · cases h

/-- An object that names a case is passed over as one with a single entry. -/
theorem entries_of_caseEntry {known : List String} {depth bound count : Nat}
    {text rest : List Char} {name : String} (h : caseEntry known text = .ok (name, rest)) :
    Skip.entries (skipWithin depth bound) (count + 2) true text = .ok rest := by
  unfold caseEntry at h
  obtain ⟨key?, hkey, h⟩ := exists_of_bind_ok h
  split at h
  · cases h
  rename_i key
  obtain ⟨⟨s, afterKey⟩, hname, h⟩ := exists_of_bind_ok h
  obtain ⟨afterColon, hcolon, h⟩ := exists_of_bind_ok h
  obtain ⟨⟨⟨⟩, afterNull⟩, hunit, h⟩ := exists_of_bind_ok h
  dsimp only at h
  split at h
  · cases h
  · rename_i hend
    cases h
    have hkey := skipSpace_of_nextKey? hkey
    have hquote : skipSpace ('"' :: key) = '"' :: key := skipSpace_cons rfl key
    obtain ⟨more, hmore, hread⟩ := exists_of_textAs (textAs_of_variant hname)
    rw [hquote] at hmore
    obtain rfl := (List.cons.inj hmore).2
    obtain ⟨null, hnull, hword⟩ := exists_of_unit hunit
    have hentry : Skip.entry (skipWithin depth bound) ('"' :: key) = .ok afterNull := by
      simp only [Skip.entry, hquote, Skip.string_of_string hread, ok_bind, hcolon,
        skipWithin_null hnull, hword]
    simp [Skip.entries, hkey, hentry, hend]
  · cases h

theorem passes_caseName {known : List String} {bound : Nat} :
    Passes (bound + 2) (caseName known) := by
  intro text name rest h
  unfold caseName at h
  split at h
  · cases h
  · rename_i more hquote
    obtain ⟨string, hstring, hread⟩ := exists_of_textAs (textAs_of_variant h)
    rw [skipSpace_cons rfl] at hstring
    obtain rfl := (List.cons.inj hstring).2
    rw [skip, skipWithin_quote hquote, Skip.string_of_string hread]
  · rename_i more hobject
    rw [skip, skipWithin_object hobject]
    exact entries_of_caseEntry h
  · cases h

/-! ## Names of fields -/

/-- Adds a name and passes over what it names. -/
def addName (bound : Nat) (names : List String) (key : String) : Reader (List String) :=
  fun text => do return (names ++ [key], ← unknownField bound text)

/-- The names of the entries of an object. -/
def entryNames (bound : Nat) : Reader (List String) :=
  Container.foldEntries (addName bound) bound true []

/-- The fields that the items of a list are given to, up to the end of the list. -/
def itemNames (bound : Nat) : (fields : List String) → (first : Bool) → Reader (List String)
  | [], _, text => return ([], ← Container.endList text)
  | field :: fields, first, text => do
    match ← Container.nextItem? first text with
    | none => return ([], ← Container.endList text)
    | some item =>
      let (names, rest) ← itemNames bound fields false (← skip bound item)
      return (field :: names, rest)

/-- The names of the fields that a record has, of which no value is read. In a list the fields come
in the order of `fields`. -/
def recordNames (fields : List String) (bound : Nat) : Reader (List String) :=
  record "a record" (itemNames bound fields true) (entryNames bound)

/-- Two folds over the entries of one object keep a relation of their states that each step keeps.
-/
theorem Container.foldEntries_simulates {σ τ : Type} {R : σ → τ → Prop}
    {step : σ → String → Reader σ} {other : τ → String → Reader τ}
    (hstep : ∀ s t key text s' rest, R s t → step s key text = .ok (s', rest) →
      ∃ t', other t key text = .ok (t', rest) ∧ R s' t')
    {bound : Nat} {first : Bool} {s s' : σ} {t : τ} {text rest : List Char} (hR : R s t)
    (h : foldEntries step bound first s text = .ok (s', rest)) :
    ∃ t', foldEntries other bound first t text = .ok (t', rest) ∧ R s' t' := by
  induction bound generalizing first s t text with
  | zero => cases h
  | succ bound ih =>
    unfold foldEntries at h ⊢
    cases hkey : nextKey? first text with
    | error e =>
      rw [hkey] at h
      cases h
    | ok key? =>
      rw [hkey] at h
      cases key? with
      | none =>
        cases h
        exact ⟨t, rfl, hR⟩
      | some key =>
        dsimp only at h ⊢
        cases hname : Lexeme.string key with
        | error e =>
          rw [hname] at h
          cases h
        | ok result =>
          rw [hname] at h
          dsimp only at h ⊢
          split at h
          · cases h
          · rename_i middle after hread
            obtain ⟨t', hother, hR'⟩ := hstep _ _ _ _ _ _ hR hread
            obtain ⟨t'', hmore, hfinal⟩ := ih hR' h
            exact ⟨t'', by rw [hother]; exact hmore, hfinal⟩

/-- A field that is read can be passed over. -/
theorem unknownField_of_field {α : Type} {name : String} {slot result : Option α}
    {reader : Reader α} {bound : Nat} (hreader : Passes bound reader) {text rest : List Char}
    (h : field name slot reader text = .ok (result, rest)) :
    unknownField bound text = .ok rest := by
  unfold field at h
  split at h
  · cases h
  · obtain ⟨after, hcolon, h⟩ := exists_of_bind_ok h
    obtain ⟨⟨a, more⟩, hread, h⟩ := exists_of_bind_ok h
    cases h
    rw [unknownField, hcolon, ok_bind]
    exact hreader after a _ hread

theorem element?_of_none {α : Type} {first : Bool} {text : List Char}
    (h : Container.nextItem? first text = .ok none) (other : Bool) (reader : Reader α) :
    element? other reader text = .ok (none, text) := by
  rw [element?, Container.nextItem?_eq_none h other]
  rfl

variable {bound : Nat} {first : Bool} {text rest : List Char}

theorem addName_of_unknownField (h : unknownField bound text = .ok rest) (names : List String)
    (key : String) : addName bound names key text = .ok (names ++ [key], rest) := by
  rw [addName, h]
  rfl

theorem itemNames_of_none (h : Container.nextItem? first text = .ok none)
    (hend : Container.endList text = .ok rest) (fields : List String) (other : Bool) :
    itemNames bound fields other text = .ok ([], rest) := by
  cases fields with
  | nil => rw [itemNames, hend, ok_bind]; rfl
  | cons field fields => rw [itemNames, Container.nextItem?_eq_none h other, ok_bind, hend]; rfl

/-- Where an item is read, a field is named, and the names go on behind it; where none is, the list
is at its end. -/
theorem element?_cases {α : Type} {reader : Reader α} (hreader : Passes bound reader)
    {slot : Option α} {more : List Char} (h : element? first reader text = .ok (slot, more)) :
    (slot = none ∧ more = text ∧ Container.nextItem? first text = .ok none) ∨
      ∃ a, slot = some a ∧ ∀ {field : String} {fields names : List String},
        itemNames bound fields false more = .ok (names, rest) →
        itemNames bound (field :: fields) first text = .ok (field :: names, rest) := by
  obtain ⟨item?, hnext, h⟩ := exists_of_bind_ok h
  cases item? with
  | none =>
    cases h
    exact .inl ⟨rfl, rfl, hnext⟩
  | some item =>
    obtain ⟨⟨a, after⟩, hread, h⟩ := exists_of_bind_ok h
    cases h
    refine .inr ⟨a, rfl, fun {field fields names} hmore => ?_⟩
    rw [itemNames, hnext, ok_bind]
    dsimp only
    rw [hreader item a _ hread, ok_bind, hmore]
    rfl

end MessageHarvest.Json
