import MessageHarvest.Proofs.Json.Layout

/-!
# The compact form is a layout

`Plain.lays_compact`: the compact form of a value is the layout of its tokens without white space,
each string with the escapes that it needs and no others. So it is read back as any layout is.
-/

namespace MessageHarvest.Json

theorem compactItems_close {vs : List Json}
    (h : ∀ v ∈ vs, v.compactChars = v.tokens.flatMap Token.chars) :
    compactItems vs ++ [']'] = (tokensOfItems true vs).flatMap Token.chars := by
  induction vs with
  | nil => rfl
  | cons v vs ih =>
    have hv := h v List.mem_cons_self
    cases vs with
    | nil => simp [compactItems, tokensOfItems, separator, hv, Token.chars, Mark.char]
    | cons w vs =>
      have htokens : tokensOfItems true (v :: w :: vs) =
          v.tokens ++ .mark .comma :: tokensOfItems true (w :: vs) := rfl
      have hlater := ih fun u hu => h u (List.mem_cons_of_mem v hu)
      rw [compactItems, List.append_assoc, List.cons_append, hlater, hv, htokens,
        List.flatMap_append]
      rfl

theorem compactEntries_close {es : List (String × Json)}
    (h : ∀ e ∈ es, e.2.compactChars = e.2.tokens.flatMap Token.chars) :
    compactEntries es ++ ['\x7d'] = (tokensOfEntries true es).flatMap Token.chars := by
  induction es with
  | nil => rfl
  | cons e es ih =>
    obtain ⟨key, v⟩ := e
    have hv : v.compactChars = v.tokens.flatMap Token.chars := h (key, v) List.mem_cons_self
    cases es with
    | nil =>
      simp [compactEntries, tokensOfEntries, separator, hv, Token.chars, scalarChars, Mark.char]
    | cons f es =>
      have htokens : tokensOfEntries true ((key, v) :: f :: es) =
          .string key :: .mark .colon ::
            (v.tokens ++ .mark .comma :: tokensOfEntries true (f :: es)) := rfl
      have hlater := ih fun g hg => h g (List.mem_cons_of_mem (key, v) hg)
      rw [compactEntries, htokens]
      simp [hlater, hv, Token.chars, scalarChars, Mark.char]

theorem Plain.compactChars_eq {v : Json} (h : Plain v) :
    v.compactChars = v.tokens.flatMap Token.chars := by
  induction h with
  | null | bool | natural | string => simp [compactChars, tokens, Token.chars]
  | array _ ih =>
    rw [compactChars, List.cons_append, compactItems_close ih]
    rfl
  | object _ ih =>
    rw [compactChars, List.cons_append, compactEntries_close ih]
    rfl

theorem Plain.lays_compact {v : Json} (h : Plain v) : Lays v.tokens v.compactChars := by
  rw [h.compactChars_eq]
  have hnone : ∀ c ∈ ([] : List Char), isSpace c := nofun
  exact lays_flatMap hnone v.tokens

end MessageHarvest.Json
