import MessageHarvest.Json.Write
import MessageHarvest.Proofs.Json.Spelling

/-!
# Layouts of values

A text consists of tokens, with white space before, between and behind them as its writer likes. A
value fixes the tokens (`Json.tokens`), and `Lays` says which texts have them: white space anywhere
between tokens, and each string in any of its spellings.

* `Plain.spells_of_lays`: whatever its layout, a text with the tokens of a value spells this value,
  if all numbers in it are natural (`Plain`). How floats are written and read is left out.
* `Plain.read_of_lays`: so the value is read from each of its layouts.
-/

namespace MessageHarvest.Json

/-- A value of which every number is natural. -/
inductive Plain : Json → Prop where
  | null : Plain .null
  | bool (value : Bool) : Plain (.bool value)
  | natural (n : UInt64) : Plain (.number (.natural n))
  | string (text : String) : Plain (.string text)
  | array {vs : List Json} (h : ∀ v ∈ vs, Plain v) : Plain (.array vs)
  | object {es : List (String × Json)} (h : ∀ e ∈ es, Plain e.2) : Plain (.object es)

/-! ## Tokens -/

/-- The marks that structure a text. -/
inductive Mark where
  | comma
  | colon
  | openList
  | closeList
  | openObject
  | closeObject
deriving DecidableEq, Repr

def Mark.char : Mark → Char
  | comma => ','
  | colon => ':'
  | openList => '['
  | closeList => ']'
  | openObject => '\x7b'
  | closeObject => '\x7d'

inductive Token where
  | mark (m : Mark)
  | null
  | bool (value : Bool)
  | number (n : Number)
  | string (text : String)
deriving DecidableEq, Repr

namespace Token

/-- A token as it is written. -/
def chars : Token → List Char
  | mark m => [m.char]
  | null => scalarChars .null
  | bool value => scalarChars (.bool value)
  | number n => scalarChars (.number n)
  | string text => scalarChars (.string text)

/-- The characters spell the token. Only strings have more than one spelling. -/
def Spelled : Token → List Char → Prop
  | string text, cs => ∃ parts, List.Forall₂ Lexeme.CharSpelling text.toList parts ∧
      cs = '"' :: (parts.flatten ++ ['"'])
  | token, cs => cs = token.chars

theorem spelled_chars (token : Token) : token.Spelled token.chars := by
  cases token with
  | string text =>
    refine ⟨_, Lexeme.forall₂_stringChar text.toList, ?_⟩
    simp [chars, scalarChars, stringChars, List.flatMap]
  | _ => rfl

end Token

/-- What goes before an item or an entry: a comma, unless it is the first. -/
def separator : (first : Bool) → List Token
  | true => []
  | false => [.mark .comma]

mutual

/-- The tokens of a value. -/
def tokens : Json → List Token
  | null => [.null]
  | bool value => [.bool value]
  | number n => [.number n]
  | string text => [.string text]
  | array items => .mark .openList :: tokensOfItems true items
  | object entries => .mark .openObject :: tokensOfEntries true entries

/-- The tokens of the items of a list, up to and including its end. -/
def tokensOfItems (first : Bool) : List Json → List Token
  | [] => [.mark .closeList]
  | v :: vs => separator first ++ (v.tokens ++ tokensOfItems false vs)

/-- The tokens of the entries of an object, up to and including its end. -/
def tokensOfEntries (first : Bool) : List (String × Json) → List Token
  | [] => [.mark .closeObject]
  | (key, v) :: es =>
    separator first ++
      (.string key :: .mark .colon :: (v.tokens ++ tokensOfEntries false es))

end

/-! ## Layouts -/

/-- The text consists of spellings of these tokens, with white space before, between and behind
them. -/
inductive Lays : List Token → List Char → Prop where
  | nil {space : List Char} (h : ∀ c ∈ space, isSpace c) : Lays [] space
  | cons {token : Token} {tokens : List Token} {space chars rest : List Char}
      (hspace : ∀ c ∈ space, isSpace c) (h : token.Spelled chars) (hrest : Lays tokens rest) :
      Lays (token :: tokens) (space ++ (chars ++ rest))

/-- The same white space may go before every token. -/
theorem lays_flatMap {space : List Char} (h : ∀ c ∈ space, isSpace c) (tokens : List Token) :
    Lays tokens (tokens.flatMap fun token => space ++ token.chars) := by
  induction tokens with
  | nil => exact .nil nofun
  | cons token tokens ih =>
    rw [List.flatMap_cons, List.append_assoc]
    exact .cons h token.spelled_chars ih

theorem skipSpace_append {space : List Char} (h : ∀ c ∈ space, isSpace c) (rest : List Char) :
    skipSpace (space ++ rest) = skipSpace rest :=
  List.dropWhile_append_of_pos h

/-! ## What a layout begins with -/

namespace Lays

variable {tokens : List Token} {text : List Char}

theorem skipSpace_nil (h : Lays [] text) : skipSpace text = [] := by
  cases h with
  | nil h => exact List.dropWhile_eq_nil_iff.mpr h

theorem mark {m : Mark} (h : Lays (.mark m :: tokens) text) :
    ∃ rest, skipSpace text = m.char :: rest ∧ Lays tokens rest := by
  cases h with
  | cons hspace h hrest =>
    cases h
    refine ⟨_, ?_, hrest⟩
    rw [skipSpace_append hspace]
    cases m <;> rfl

theorem string {s : String} (h : Lays (.string s :: tokens) text) :
    ∃ chars rest, skipSpace text = '"' :: chars ∧ Lexeme.string chars = .ok (s, rest) ∧
      Lays tokens rest := by
  cases h with
  | cons hspace h hrest =>
    obtain ⟨parts, hparts, rfl⟩ := h
    refine ⟨_, _, ?_, Lexeme.string_append hparts _, hrest⟩
    rw [skipSpace_append hspace]
    simp [skipSpace, isSpace]

end Lays

/-- There are no tokens, or the first is a mark. -/
def BeginsMarked (tokens : List Token) : Prop :=
  ∀ token ∈ tokens.head?, ∃ m, token = .mark m

theorem beginsMarked_cons (m : Mark) (tokens : List Token) :
    BeginsMarked (.mark m :: tokens) := by
  intro token htoken
  cases htoken
  exact ⟨m, rfl⟩

theorem beginsMarked_items (vs : List Json) (more : List Token) :
    BeginsMarked (tokensOfItems false vs ++ more) := by
  cases vs <;> exact beginsMarked_cons _ _

theorem beginsMarked_entries (es : List (String × Json)) (more : List Token) :
    BeginsMarked (tokensOfEntries false es ++ more) := by
  cases es <;> exact beginsMarked_cons _ _

theorem EndsNumber.of_cons {c : Char} (h : c.isDigit = false ∧ c ≠ '.' ∧ c ≠ 'e' ∧ c ≠ 'E')
    (rest : List Char) : EndsNumber (c :: rest) := by
  intro d hd
  cases hd
  exact h

theorem not_number_of_isSpace {c : Char} (h : isSpace c) :
    c.isDigit = false ∧ c ≠ '.' ∧ c ≠ 'e' ∧ c ≠ 'E' := by
  simp only [isSpace, Bool.or_eq_true, decide_eq_true_eq] at h
  rcases h with ((rfl | rfl) | rfl) | rfl <;> decide

/-- Neither white space nor a mark goes on with a number. -/
theorem Lays.endsNumber {tokens : List Token} {text : List Char} (h : Lays tokens text)
    (htokens : BeginsMarked tokens) : EndsNumber text := by
  cases h with
  | nil hspace =>
    cases text with
    | nil => exact nofun
    | cons c space => exact .of_cons (not_number_of_isSpace (hspace c List.mem_cons_self)) space
  | @cons token _ space chars rest hspace h _ =>
    cases space with
    | nil =>
      obtain ⟨m, rfl⟩ := htokens token rfl
      cases h
      refine .of_cons ?_ rest
      cases m <;> decide
    | cons c space => exact .of_cons (not_number_of_isSpace (hspace c List.mem_cons_self)) _

/-! ## What a layout spells -/

/-- In every layout the tokens of the value spell it, if no further value follows at once. -/
def SpelledByTokens (v : Json) : Prop :=
  ∀ more text, BeginsMarked more → Lays (v.tokens ++ more) text →
    ∃ rest, Spells (.value v) (skipSpace text) rest ∧ Lays more rest

theorem spells_scalar {v : Json} {token : Token} {more : List Token} {text : List Char}
    (hread : ∀ chars rest, token.Spelled chars → EndsNumber rest →
      scalar? (chars ++ rest) = some (.ok (v, rest)))
    (hmore : BeginsMarked more) (h : Lays (token :: more) text) :
    ∃ rest, Spells (.value v) (skipSpace text) rest ∧ Lays more rest := by
  cases h with
  | @cons _ _ space chars rest hspace hchars hrest =>
    have hspells : Spells (.value v) (chars ++ rest) rest :=
      .scalar (hread chars rest hchars (hrest.endsNumber hmore))
    refine ⟨rest, ?_, hrest⟩
    rw [skipSpace_append hspace, hspells.skipSpace_value]
    exact hspells

theorem separates_of_lays {first : Bool} {tokens : List Token} {text : List Char}
    (h : Lays (separator first ++ tokens) text) :
    ∃ part, Separates first text (skipSpace part) ∧ Lays tokens part := by
  cases first with
  | true => exact ⟨text, rfl, h⟩
  | false =>
    obtain ⟨rest, hcomma, hrest⟩ := Lays.mark h
    exact ⟨rest, ⟨rest, hcomma, rfl⟩, hrest⟩

theorem spells_items {vs : List Json} (h : ∀ v ∈ vs, SpelledByTokens v) {first : Bool}
    {more : List Token} {text : List Char} (hlays : Lays (tokensOfItems first vs ++ more) text) :
    ∃ rest, Spells (.items first vs) text rest ∧ Lays more rest := by
  induction vs generalizing first text with
  | nil =>
    obtain ⟨rest, hend, hrest⟩ := Lays.mark hlays
    exact ⟨rest, .endItems hend, hrest⟩
  | cons v vs ih =>
    rw [tokensOfItems, List.append_assoc, List.append_assoc] at hlays
    obtain ⟨part, hpart, hlater⟩ := separates_of_lays hlays
    obtain ⟨after, hv, hafter⟩ := h v List.mem_cons_self _ _ (beginsMarked_items vs more) hlater
    obtain ⟨rest, hvs, hrest⟩ := ih (fun w hw => h w (List.mem_cons_of_mem v hw)) hafter
    exact ⟨rest, .items hpart hv hvs, hrest⟩

theorem spells_entry {v : Json} (h : SpelledByTokens v) {key : String} {more : List Token}
    {text : List Char} (hmore : BeginsMarked more)
    (hlays : Lays (.string key :: .mark .colon :: (v.tokens ++ more)) text) :
    ∃ rest, Spells (.entry key v) (skipSpace text) rest ∧ Lays more rest := by
  obtain ⟨name, behind, hquote, hkey, hbehind⟩ := hlays.string
  obtain ⟨value, hcolon, hvalue⟩ := hbehind.mark
  obtain ⟨rest, hv, hrest⟩ := h more value hmore hvalue
  rw [hquote]
  exact ⟨rest, .entry hkey hcolon hv, hrest⟩

theorem spells_entries {es : List (String × Json)} (h : ∀ e ∈ es, SpelledByTokens e.2)
    {first : Bool} {more : List Token} {text : List Char}
    (hlays : Lays (tokensOfEntries first es ++ more) text) :
    ∃ rest, Spells (.entries first es) text rest ∧ Lays more rest := by
  induction es generalizing first text with
  | nil =>
    obtain ⟨rest, hend, hrest⟩ := Lays.mark hlays
    exact ⟨rest, .endEntries hend, hrest⟩
  | cons e es ih =>
    obtain ⟨key, v⟩ := e
    rw [tokensOfEntries, List.append_assoc, List.cons_append, List.cons_append,
      List.append_assoc] at hlays
    obtain ⟨part, hpart, hlater⟩ := separates_of_lays hlays
    obtain ⟨after, he, hafter⟩ :=
      spells_entry (h (key, v) List.mem_cons_self) (beginsMarked_entries es more) hlater
    obtain ⟨rest, hes, hrest⟩ := ih (fun f hf => h f (List.mem_cons_of_mem _ hf)) hafter
    exact ⟨rest, .entries hpart he hes, hrest⟩

/-- Every layout of the tokens of a value spells it, whatever follows but another value. -/
theorem Plain.spells_of_lays {v : Json} (h : Plain v) : SpelledByTokens v := by
  induction h with
  | null =>
    intro more text hmore hlays
    refine spells_scalar ?_ hmore hlays
    rintro _ rest rfl -
    rfl
  | bool value =>
    intro more text hmore hlays
    refine spells_scalar ?_ hmore hlays
    rintro _ rest rfl -
    cases value <;> rfl
  | natural n =>
    intro more text hmore hlays
    refine spells_scalar ?_ hmore hlays
    rintro _ rest rfl hrest
    exact scalar?_natural n hrest
  | string s =>
    intro more text hmore hlays
    refine spells_scalar ?_ hmore hlays
    rintro _ rest ⟨parts, hparts, rfl⟩ -
    rw [List.cons_append, List.append_assoc]
    exact scalar?_string hparts rest
  | array _ ih =>
    intro more text _ hlays
    obtain ⟨inside, hopen, hinside⟩ := hlays.mark
    obtain ⟨rest, hitems, hrest⟩ := spells_items ih hinside
    rw [hopen]
    exact ⟨rest, .array hitems, hrest⟩
  | object _ ih =>
    intro more text _ hlays
    obtain ⟨inside, hopen, hinside⟩ := hlays.mark
    obtain ⟨rest, hentries, hrest⟩ := spells_entries ih hinside
    rw [hopen]
    exact ⟨rest, .object hentries, hrest⟩

/-- A whole text that lays out a value spells it, with white space around it. -/
theorem Plain.exists_spells_of_lays {v : Json} {text : List Char} (h : Plain v)
    (hlays : Lays v.tokens text) :
    ∃ rest, Spells (.value v) (skipSpace text) rest ∧ skipSpace rest = [] := by
  rw [← List.append_nil v.tokens] at hlays
  obtain ⟨rest, hspells, hrest⟩ := h.spells_of_lays [] text nofun hlays
  exact ⟨rest, hspells, hrest.skipSpace_nil⟩

/-- A value that is not too deep is read from every layout of its tokens. -/
theorem Plain.read_of_lays {v : Json} {source : String} (h : Plain v)
    (hlays : Lays v.tokens source.toList) (hdepth : v.depth ≤ maxDepth) :
    read (value maxDepth) source = .ok v := by
  obtain ⟨rest, hspells, hrest⟩ := h.exists_spells_of_lays hlays
  have hlength : (skipSpace source.toList).length ≤ source.toList.length + 1 :=
    Nat.le_succ_of_le (skipSpace_length _)
  have hvalue := value_of_spells hspells hlength maxDepth
  rw [value_skipSpace] at hvalue
  exact (read_of_yields hvalue hrest).1 hdepth

end MessageHarvest.Json
