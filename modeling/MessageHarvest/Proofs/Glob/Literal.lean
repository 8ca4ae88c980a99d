import MessageHarvest.Glob.Pattern

/-!
# Literal patterns

A pattern without wildcards and classes stands for its own text.

* `Pattern.literal?_of_parse`: it does if it could be read.
* `Pattern.parse_of_plain`: a text without wildcards and brackets can be.
* `Pattern.head?_of_parseFrom`: only a text that begins with a dot gives a pattern that does.
-/

namespace MessageHarvest.Glob.Pattern

theorem prefix_pushComponents (tokens : Array Token) :
    tokens.toList <+: (pushComponents tokens).toList := by
  unfold pushComponents
  split
  · exact List.prefix_rfl
  · simp

theorem anyComponents_mem_pushComponents (tokens : Array Token) :
    .anyComponents ∈ (pushComponents tokens).toList := by
  unfold pushComponents
  split
  · rename_i h
    simpa using Array.mem_of_back? h.2
  · simp

theorem readClass?_ne_char {text rest : List Char} {token : Token} {taken : Nat}
    (h : readClass? text = some (token, taken, rest)) (c : Char) : token ≠ .char c := by
  unfold readClass? at h
  split at h
  · obtain ⟨_, _, he⟩ := Option.map_eq_some_iff.mp h
    cases he
    nofun
  · cases h
  · obtain ⟨_, _, he⟩ := Option.map_eq_some_iff.mp h
    cases he
    nofun
  · cases h

/-- Reading on keeps the tokens that were read. -/
theorem prefix_parseFrom {tokens result : Array Token} {previous : Option Char} {position : Nat}
    {text : List Char} (h : parseFrom tokens previous position text = .ok result) :
    tokens.toList <+: result.toList := by
  fun_induction parseFrom tokens previous position text with
  | case1 => cases h; exact List.prefix_rfl
  | case4 => cases h; exact prefix_pushComponents _
  | case5 _ _ _ _ _ _ ih => exact (prefix_pushComponents _).trans (ih h)
  | case3 | case6 | case7 | case10 => cases h
  | case2 _ _ _ _ ih | case8 _ _ _ _ _ _ ih | case9 _ _ _ _ _ _ _ _ ih
  | case11 _ _ _ _ _ _ _ _ _ _ ih =>
    exact List.IsPrefix.trans (by simp) (ih h)

/-- Where only characters were read, they are the text. -/
theorem parseFrom_of_chars {tokens result : Array Token} {previous : Option Char} {position : Nat}
    {text : List Char} (h : parseFrom tokens previous position text = .ok result)
    (hall : ∀ token ∈ result.toList, ∃ c, token = .char c) :
    result.toList = tokens.toList ++ text.map .char := by
  -- a token of another kind stays in the result once it has been read
  have hpush : ∀ {tokens : Array Token} {token : Token} {previous position text},
      parseFrom (tokens.push token) previous position text = .ok result →
      ∃ c, token = .char c := fun h =>
    hall _ ((prefix_parseFrom h).subset (by simp))
  fun_induction parseFrom tokens previous position text with
  | case1 => cases h; simp
  | case4 =>
    cases h
    exact absurd (hall _ (anyComponents_mem_pushComponents _)) (by simp)
  | case5 _ _ _ _ _ _ ih =>
    have hmem := (prefix_parseFrom h).subset (anyComponents_mem_pushComponents _)
    exact absurd (hall _ hmem) (by simp)
  | case3 | case6 | case7 | case10 => cases h
  | case2 | case8 => exact absurd (hpush h) (by simp)
  | case9 _ _ _ _ token _ _ hclass =>
    obtain ⟨c, rfl⟩ := hpush h
    exact absurd rfl (readClass?_ne_char hclass c)
  | case11 _ _ _ _ _ _ _ _ _ _ ih => simpa using ih h

theorem literal?_eq_some_iff {pattern : Pattern} {literal : List Char} :
    pattern.literal? = some literal ↔ pattern.tokens = literal.map .char := by
  obtain ⟨tokens⟩ := pattern
  induction tokens generalizing literal with
  | nil => cases literal <;> simp [literal?]
  | cons token tokens ih =>
    have hrest : ∀ {literal : List Char}, literal? ⟨tokens⟩ = some literal ↔
        tokens = literal.map .char := ih
    simp only [literal?] at hrest
    cases token with
    | char c =>
      cases literal with
      | nil => simp [literal?, List.mapM_cons, Option.bind_eq_some_iff]
      | cons d literal =>
        simp [literal?, List.mapM_cons, Option.bind_eq_some_iff, hrest]
        exact and_comm
    | _ => cases literal <;> simp [literal?, List.mapM_cons]

theorem exists_of_parse {text : String} {pattern : Pattern} (h : parse text = .ok pattern) :
    ∃ result, parseFrom #[] none 0 text.toList = .ok result ∧ pattern = ⟨result.toList⟩ := by
  cases hparse : parseFrom #[] none 0 text.toList with
  | error e => simp [parse, hparse, bind, Except.bind] at h
  | ok result =>
    refine ⟨result, rfl, ?_⟩
    simpa [parse, hparse, bind, Except.bind, pure, Except.pure, eq_comm] using h

/-- Only a text that begins with a dot is read as a pattern that does. -/
theorem head?_of_parseFrom {text : List Char} {result : Array Token}
    (h : parseFrom #[] none 0 text = .ok result)
    (hhead : result.toList.head? = some (.char '.')) : text.head? = some '.' := by
  have hfirst : ∀ {tokens : Array Token} {token : Token} {previous position text},
      tokens.toList.head? = some token → parseFrom tokens previous position text = .ok result →
      token = .char '.' := by
    intro tokens token previous position text htokens h
    obtain ⟨more, hmore⟩ := prefix_parseFrom h
    rw [← hmore, List.head?_append, htokens, Option.some_or, Option.some_inj] at hhead
    exact hhead
  revert h
  fun_cases parseFrom #[] none 0 text with
  | case1 | case4 =>
    intro h
    cases h
    cases hhead
  | case3 | case6 | case7 | case10 => nofun
  | case2 | case5 | case8 => exact fun h => nomatch hfirst rfl h
  | case9 _ _ _ _ hclass => exact fun h => absurd (hfirst rfl h) (readClass?_ne_char hclass _)
  | case11 =>
    intro h
    simpa using hfirst rfl h

/-- A literal pattern stands for the text it was read from. -/
theorem literal?_of_parse {text : String} {pattern : Pattern} {literal : List Char}
    (h : parse text = .ok pattern) (hliteral : pattern.literal? = some literal) :
    literal = text.toList := by
  obtain ⟨result, hparse, rfl⟩ := exists_of_parse h
  have htokens : result.toList = literal.map .char := literal?_eq_some_iff.mp hliteral
  have hchars : ∀ token ∈ result.toList, ∃ c, token = .char c := by
    intro token htoken
    rw [htokens] at htoken
    obtain ⟨c, -, rfl⟩ := List.mem_map.mp htoken
    exact ⟨c, rfl⟩
  have hmap : literal.map Token.char = text.toList.map .char := by
    rw [← htokens, parseFrom_of_chars hparse hchars]
    simp
  exact (List.map_inj_right fun _ _ => Token.char.inj).mp hmap

theorem parseFrom_of_plain (tokens : Array Token) (previous : Option Char) (position : Nat)
    {text : List Char} (h : ∀ c ∈ text, c ≠ '*' ∧ c ≠ '?' ∧ c ≠ '[') :
    parseFrom tokens previous position text =
      .ok (tokens ++ (text.map Token.char).toArray) := by
  induction text generalizing tokens previous position with
  | nil => simp [parseFrom]
  | cons c text ih =>
    obtain ⟨hstar, hquestion, hbracket⟩ := h c List.mem_cons_self
    have hrest := ih (tokens.push (.char c)) (some c) (position + 1)
      fun d hd => h d (List.mem_cons_of_mem _ hd)
    rw [parseFrom.eq_8 _ _ _ _ _ hquestion (fun _ he _ => hstar he) (fun _ he _ => hstar he) hstar
      hbracket, hrest]
    simp

/-- A text without wildcards and brackets is read as it stands. -/
theorem parse_of_plain {text : String} (h : ∀ c ∈ text.toList, c ≠ '*' ∧ c ≠ '?' ∧ c ≠ '[') :
    parse text = .ok ⟨text.toList.map .char⟩ := by
  simp [parse, parseFrom_of_plain #[] none 0 h, bind, Except.bind, pure, Except.pure]

end MessageHarvest.Glob.Pattern
