import MessageHarvest.Proofs.Json.Layout

/-!
# The pretty form is a layout

`Plain.lays_pretty`: the pretty form of a value is a layout of its tokens, with line breaks and
indentation for the white space, however many containers there are around the value. So it is read
back as any layout is.
-/

namespace MessageHarvest.Json

/-! ## Layouts one after the other -/

namespace Lays

variable {tokens later : List Token} {text more space : List Char}

theorem space_append (hspace : ∀ c ∈ space, isSpace c) (h : Lays tokens text) :
    Lays tokens (space ++ text) := by
  cases h with
  | nil h => exact .nil (List.forall_mem_append.mpr ⟨hspace, h⟩)
  | cons h hchars hrest =>
    rw [← List.append_assoc]
    exact .cons (List.forall_mem_append.mpr ⟨hspace, h⟩) hchars hrest

theorem chars_append (token : Token) (h : Lays tokens text) :
    Lays (token :: tokens) (token.chars ++ text) :=
  .cons (List.forall_mem_nil _) token.spelled_chars h

/-- White space at the end of the one is white space at the beginning of the other. -/
theorem append (h : Lays tokens text) (hmore : Lays later more) :
    Lays (tokens ++ later) (text ++ more) := by
  induction h with
  | nil h => exact hmore.space_append h
  | cons h hchars _ ih =>
    rw [List.append_assoc, List.append_assoc]
    exact .cons h hchars ih

end Lays

/-! ## Pretty forms -/

theorem isSpace_newLine (level : Nat) : ∀ c ∈ newLine level, isSpace c := by
  intro c hc
  rcases List.mem_cons.mp hc with rfl | hc
  · decide
  · rw [List.eq_of_mem_replicate hc]
    decide

/-- The end of a container stands on a line of its own. -/
theorem lays_close (level : Nat) (m : Mark) : Lays [.mark m] (newLine level ++ [m.char]) :=
  (Lays.chars_append (.mark m) (.nil (List.forall_mem_nil _))).space_append (isSpace_newLine level)

section

variable {level : Nat} {close : List Char}

theorem lays_prettyItems {v : Json} {vs : List Json}
    (h : ∀ w ∈ v :: vs, Lays w.tokens (w.prettyChars level))
    (hclose : Lays [.mark .closeList] close) :
    Lays (tokensOfItems true (v :: vs)) (prettyItems level (v :: vs) ++ close) := by
  induction vs generalizing v with
  | nil =>
    have hv := (h v List.mem_cons_self).space_append (isSpace_newLine level)
    exact hv.append hclose
  | cons w vs ih =>
    have hv := (h v List.mem_cons_self).space_append (isSpace_newLine level)
    have hlater := (ih fun u hu => h u (List.mem_cons_of_mem v hu)).chars_append (.mark .comma)
    rw [prettyItems, List.append_assoc]
    exact hv.append hlater

theorem lays_prettyEntry {key : String} {v : Json} (h : Lays v.tokens (v.prettyChars level)) :
    Lays (.string key :: .mark .colon :: v.tokens)
      (newLine level ++ stringChars key ++ ':' :: ' ' :: v.prettyChars level) := by
  have hblank : ∀ c ∈ [' '], isSpace c := by simp [isSpace]
  have hentry := ((h.space_append hblank).chars_append (.mark .colon)).chars_append (.string key)
  rw [List.append_assoc]
  exact hentry.space_append (isSpace_newLine level)

theorem lays_prettyEntries {e : String × Json} {es : List (String × Json)}
    (h : ∀ f ∈ e :: es, Lays f.2.tokens (f.2.prettyChars level))
    (hclose : Lays [.mark .closeObject] close) :
    Lays (tokensOfEntries true (e :: es)) (prettyEntries level (e :: es) ++ close) := by
  induction es generalizing e with
  | nil => exact (lays_prettyEntry (h e List.mem_cons_self)).append hclose
  | cons f es ih =>
    have hlater := (ih fun g hg => h g (List.mem_cons_of_mem e hg)).chars_append (.mark .comma)
    rw [prettyEntries, List.append_assoc]
    exact (lays_prettyEntry (h e List.mem_cons_self)).append hlater

end

/-- The pretty form lays out the tokens of the value, whatever containers are around it. -/
theorem Plain.lays_pretty {v : Json} (h : Plain v) (level : Nat) :
    Lays v.tokens (v.prettyChars level) := by
  induction h generalizing level with
  | null | bool | natural | string =>
    rw [← List.append_nil (prettyChars _ _)]
    exact (Lays.nil (List.forall_mem_nil _)).chars_append _
  | @array vs _ ih =>
    cases vs with
    | nil =>
      have hclose := (Lays.nil (List.forall_mem_nil _)).chars_append (.mark .closeList)
      exact hclose.chars_append (.mark .openList)
    | cons v vs =>
      have hitems :=
        lays_prettyItems (fun w hw => ih w hw (level + 1)) (lays_close level .closeList)
      rw [prettyChars, List.cons_append, List.cons_append, List.append_assoc]
      exact hitems.chars_append (.mark .openList)
  | @object es _ ih =>
    cases es with
    | nil =>
      have hclose := (Lays.nil (List.forall_mem_nil _)).chars_append (.mark .closeObject)
      exact hclose.chars_append (.mark .openObject)
    | cons e es =>
      have hentries :=
        lays_prettyEntries (fun f hf => ih f hf (level + 1)) (lays_close level .closeObject)
      rw [prettyChars, List.cons_append, List.cons_append, List.append_assoc]
      exact hentries.chars_append (.mark .openObject)

end MessageHarvest.Json
