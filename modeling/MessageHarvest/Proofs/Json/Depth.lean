import MessageHarvest.Json.Field
import MessageHarvest.Proofs.Json.Spelling

/-!
# What is read is not too deep

A reader of values bounds how deep it goes, so whatever it gives is no deeper than that, however the
text spells it. `Ensures` says of a reader that all it gives satisfies a predicate; a fold over the
parts of a container ensures what each of its steps keeps.

* `value_ensures`: a value that is read within `depth` containers is no deeper.
* `record_ensures`: what both forms of a record ensure.
* `exists_of_read`: a whole text is read by its reader.
-/

namespace MessageHarvest.Json

/-- Whatever is read satisfies `P`. -/
def Ensures {α : Type} (P : α → Prop) (result : Except Stop (α × List Char)) : Prop :=
  ∀ a rest, result = .ok (a, rest) → P a

section

variable {α β : Type} {P : α → Prop} {Q : β → Prop} {result : Except Stop (α × List Char)}

theorem ensures_ok {a : α} (h : P a) (rest : List Char) : Ensures P (.ok (a, rest)) := by
  intro b more heq
  cases heq
  exact h

theorem ensures_error (e : Stop) : Ensures P (.error e) := by
  intro a rest heq
  cases heq

/-- What is read first need not be a value. -/
theorem ensures_bind {γ : Type} (first : Except Stop γ)
    {next : γ → Except Stop (β × List Char)} (h : ∀ c, first = .ok c → Ensures Q (next c)) :
    Ensures Q (first >>= next) := by
  cases first with
  | error e => exact ensures_error e
  | ok c => exact h c rfl

theorem Ensures.bind (h : Ensures P result) {next : α × List Char → Except Stop (β × List Char)}
    (hnext : ∀ a rest, P a → Ensures Q (next (a, rest))) : Ensures Q (result >>= next) :=
  ensures_bind result fun (a, rest) heq => hnext a rest (h a rest heq)

theorem Ensures.map {f : α × List Char → β × List Char} (h : Ensures P result)
    (hf : ∀ a rest, P a → Q (f (a, rest)).1) : Ensures Q (f <$> result) := by
  intro b rest heq
  obtain ⟨⟨a, more⟩, hread, hfa⟩ := exists_of_map_ok heq
  have hb := hf a more (h a more hread)
  rw [hfa] at hb
  exact hb

end

/-! ## Folds over containers -/

namespace Container

variable {σ : Type} {P : σ → Prop}

/-- What each step keeps is kept by all items of a list. -/
theorem foldItems_ensures {step : σ → Reader σ}
    (hstep : ∀ state text, P state → Ensures P (step state text)) (bound : Nat) (first : Bool)
    {state : σ} (text : List Char) (h : P state) :
    Ensures P (foldItems step bound first state text) := by
  induction bound generalizing first state text with
  | zero => exact ensures_error _
  | succ bound ih =>
    unfold foldItems
    split
    · exact ensures_error _
    · exact ensures_ok h _
    · rename_i item _
      split
      · exact ensures_error _
      · rename_i next more hread
        exact ih false more (hstep state item h next more hread)

/-- What each step keeps is kept by all entries of an object. -/
theorem foldEntries_ensures {step : σ → String → Reader σ}
    (hstep : ∀ state key text, P state → Ensures P (step state key text)) (bound : Nat)
    (first : Bool) {state : σ} (text : List Char) (h : P state) :
    Ensures P (foldEntries step bound first state text) := by
  induction bound generalizing first state text with
  | zero => exact ensures_error _
  | succ bound ih =>
    unfold foldEntries
    split
    · exact ensures_error _
    · exact ensures_ok h _
    · split
      · exact ensures_error _
      · rename_i key after _
        split
        · exact ensures_error _
        · rename_i next more hread
          exact ih false more (hstep state key after h next more hread)

end Container

/-! ## Values -/

theorem ensures_scalar {text : List Char} {result : Except Stop (Json × List Char)}
    (h : scalar? text = some result) (depth : Nat) : Ensures (·.depth ≤ depth) result := by
  rintro v rest rfl
  rw [scalar?_depth h]
  exact Nat.zero_le depth

/-- Around values that are not too deep there may be one container more. -/
theorem valueWith_ensures {depth : Nat} {inner : Reader Json}
    (h : ∀ text, Ensures (·.depth ≤ depth) (inner text)) (bound : Nat) (text : List Char) :
    Ensures (·.depth ≤ depth + 1) (valueWith (some inner) bound text) := by
  have hitem : ∀ (done : List Json) (text : List Char), (∀ v ∈ done, v.depth ≤ depth) →
      Ensures (fun done => ∀ v ∈ done, v.depth ≤ depth) (itemStep inner done text) := by
    intro done text hdone
    refine (h text).bind fun v rest hv => ensures_ok ?_ rest
    exact List.forall_mem_cons.mpr ⟨hv, hdone⟩
  have hentry : ∀ (done : List (String × Json)) (key : String) (text : List Char),
      (∀ e ∈ done, e.2.depth ≤ depth) →
      Ensures (fun done => ∀ e ∈ done, e.2.depth ≤ depth) (entryStep inner done key text) := by
    intro done key text hdone
    refine ensures_bind _ fun after _ => (h after).bind fun v rest hv => ensures_ok ?_ rest
    exact List.forall_mem_cons.mpr ⟨hv, hdone⟩
  unfold valueWith
  dsimp only
  split
  · exact ensures_scalar ‹_› _
  · split
    · exact ensures_error _
    · rename_i more reader _ heq
      obtain rfl := Option.some.inj heq
      refine (Container.foldItems_ensures hitem bound true more (by simp)).map ?_
      intro done rest hdone
      rw [Json.depth, Nat.add_le_add_iff_right, depthOfItems_le]
      exact fun v hv => hdone v (List.mem_reverse.mp hv)
    · rename_i more reader _ heq
      obtain rfl := Option.some.inj heq
      refine (Container.foldEntries_ensures hentry bound true more (by simp)).map ?_
      intro done rest hdone
      rw [Json.depth, Nat.add_le_add_iff_right, depthOfEntries_le]
      exact fun e he => hdone e (List.mem_reverse.mp he)
    · exact ensures_error _

/-- A value that is read is no deeper than the reader goes. -/
theorem value_ensures (depth bound : Nat) (text : List Char) :
    Ensures (·.depth ≤ depth) (value depth bound text) := by
  induction depth generalizing text with
  | zero =>
    unfold value valueWith
    dsimp only
    split
    · exact ensures_scalar ‹_› 0
    · -- without a reader of the parts every container is refused
      split
      · exact ensures_error _
      · contradiction
      · contradiction
      · exact ensures_error _
  | succ depth ih => exact valueWith_ensures ih bound text

/-! ## Records and whole texts -/

/-- Where a value is not what is expected nothing is read. -/
theorem mismatch_ensures {α : Type} (P : α → Prop) (expected : String) (text : List Char) :
    Ensures P (mismatch expected text) := by
  unfold mismatch
  dsimp only
  split
  · exact ensures_error _
  · exact ensures_error _
  · split <;> exact ensures_error _

/-- A record is read in one of its two forms. -/
theorem record_ensures {α : Type} {P : α → Prop} {ofList ofObject : Reader α}
    (hlist : ∀ text, Ensures P (ofList text)) (hobject : ∀ text, Ensures P (ofObject text))
    (expected : String) (text : List Char) :
    Ensures P (record expected ofList ofObject text) := by
  unfold record
  split
  · exact hlist _
  · exact hobject _
  · exact mismatch_ensures P expected _

/-- A whole text is read by its reader, and white space may be left. -/
theorem exists_of_read {α : Type} {reader : Nat → Reader α} {source : String} {a : α}
    (h : read reader source = .ok a) :
    ∃ rest, reader (source.toList.length + 1) source.toList = .ok (a, rest) ∧
      skipSpace rest = [] := by
  unfold read at h
  dsimp only at h
  cases hread : reader (source.toList.length + 1) source.toList with
  | error e =>
    rw [hread] at h
    cases h
  | ok result =>
    obtain ⟨b, rest⟩ := result
    rw [hread, ok_bind] at h
    dsimp only at h
    split at h
    · rename_i hrest
      cases h
      exact ⟨rest, rfl, hrest⟩
    · cases h

theorem read_of_reader {α : Type} {reader : Nat → Reader α} {source : String} {a : α}
    {rest : List Char} (h : reader (source.toList.length + 1) source.toList = .ok (a, rest))
    (hrest : skipSpace rest = []) : read reader source = .ok a := by
  simp only [read, h, ok_bind, hrest]
  rfl

/-- A record begins with the bracket of one of its forms. -/
theorem record_cases {α : Type} {expected : String} {ofList ofObject : Reader α}
    {text rest : List Char} {a : α} (h : record expected ofList ofObject text = .ok (a, rest)) :
    (∃ more, skipSpace text = '[' :: more ∧ ofList more = .ok (a, rest)) ∨
      ∃ more, skipSpace text = '\x7b' :: more ∧ ofObject more = .ok (a, rest) := by
  unfold record at h
  split at h
  · exact .inl ⟨_, by assumption, h⟩
  · exact .inr ⟨_, by assumption, h⟩
  · exact (mismatch_ensures (fun _ => False) expected _ a rest h).elim

end MessageHarvest.Json
