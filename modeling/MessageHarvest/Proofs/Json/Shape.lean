import MessageHarvest.Json.Field
import MessageHarvest.Proofs.Json.Spelling

/-!
# Readers of a given shape read what is spelled

`Reads` says of a reader that it gives the same for every spelling of a value, and that it stops
behind the value. The readers of strings, of names, of lines, of lists of strings and of what may be
null read so, and a field of a record is read as the reader of its value reads (`Reads.field`).
-/

namespace MessageHarvest.Json

variable {α : Type} {bound : Nat} {reader : Reader α} {v : Json} {a : α}

/-- The reader gives `a` for every spelling of the value in at most `bound` characters. -/
def Reads (bound : Nat) (reader : Reader α) (v : Json) (a : α) : Prop :=
  ∀ text rest, Spells (.value v) (skipSpace text) rest → text.length ≤ bound →
    reader text = .ok (a, rest)

theorem reads_textAs (bound : Nat) (expected s : String) :
    Reads bound (textAs expected) (.string s) s := by
  intro text rest h _
  cases h with
  | scalar h =>
    obtain ⟨chars, htext, hstring⟩ := string_of_scalar? h
    simp only [textAs, htext, hstring]

theorem reads_variant (bound : Nat) {known : List String} {name : String} (h : name ∈ known) :
    Reads bound (variant known) (.string name) name := by
  intro text rest hspells hlength
  have hknown : known.contains name = true := List.contains_iff_mem.mpr h
  rw [variant, reads_textAs bound _ name _ _ hspells hlength, ok_bind]
  simp only [hknown, if_true]
  rfl

/-- A case without contents is read where its name is spelled as a string. -/
theorem reads_caseName (bound : Nat) {known : List String} {name : String} (h : name ∈ known) :
    Reads bound (caseName known) (.string name) name := by
  intro text rest hspells hlength
  cases hspells with
  | scalar hscalar =>
    obtain ⟨chars, htext, -⟩ := string_of_scalar? hscalar
    have hskip : skipSpace ('"' :: chars) = skipSpace text := by
      rw [skipSpace_cons rfl, htext]
    have hquoted : ('"' :: chars).length ≤ bound := by
      rw [← htext]
      exact Nat.le_trans (skipSpace_length text) hlength
    have hvariant : variant known ('"' :: chars) = .ok (name, rest) := by
      refine reads_variant bound h _ _ ?_ hquoted
      rw [hskip]
      exact .scalar hscalar
    simp only [caseName, htext, hvariant]

/-- Reads an item of a list of strings, which goes before those that were read. -/
def textStep (done : List String) : Reader (List String) := fun source => do
  let (s, rest) ← text source
  return (s :: done, rest)

/-- What `textStep` makes of an item. -/
def addText (done : List String) : Json → List String
  | .string s => s :: done
  | _ => done

theorem foldl_addText (texts done : List String) :
    (texts.map Json.string).foldl addText done = texts.reverse ++ done := by
  induction texts generalizing done with
  | nil => rfl
  | cons s texts ih => simp [addText, ih]

theorem texts_list {text inside : List Char} (h : skipSpace text = '[' :: inside) (bound : Nat) :
    texts bound text =
      (fun (done, rest) => (done.reverse, rest)) <$>
        Container.foldItems textStep bound true [] inside := by
  rw [texts, h]
  rfl

theorem reads_texts (bound : Nat) (ss : List String) :
    Reads bound (texts bound) (.array (ss.map .string)) ss := by
  intro text rest hspells hlength
  obtain ⟨inside, hinside, hitems⟩ := hspells.exists_of_array
  have hbound := Nat.le_trans (Nat.le_of_lt (length_lt_of_skipSpace hinside)) hlength
  have hfold : Yields (∀ v ∈ ss.map Json.string, True) ((ss.map Json.string).foldl addText [], rest)
      (Container.foldItems textStep bound true [] inside) := by
    refine Container.foldItems_of_spells addText ?_ hitems bound hbound hbound []
    intro v text rest done hmem hv hlength
    obtain ⟨s, -, rfl⟩ := List.mem_map.mp hmem
    rw [← hv.skipSpace_value] at hv
    rw [textStep, Json.text, reads_textAs bound _ s text rest hv hlength]
    exact .of_eq rfl
  rw [texts_list hinside, hfold.reads fun _ _ => trivial, foldl_addText, List.append_nil]
  simp only [Functor.map, Except.map, List.reverse_reverse]

theorem reads_line (bound : Nat) (n : UInt64) : Reads bound line (.number (.natural n)) n := by
  intro text rest h _
  cases h with
  | scalar h =>
    rcases number_of_scalar? h with ⟨more, htext, hnumber⟩ | ⟨c, more, htext, hc, hnumber⟩
    · simp only [line, htext, hnumber, lineOfNumber]
    · have hsign : c ≠ '-' := by
        rintro rfl
        cases hc
      simp_all [line, lineOfNumber]

theorem reads_optional_null (bound : Nat) (reader : Reader α) :
    Reads bound (optional reader) .null none := by
  intro text rest h _
  cases h with
  | scalar h =>
    obtain ⟨more, htext, hword⟩ := null_of_scalar? h
    simp only [optional, htext, hword]
    rfl

namespace Reads

/-- What is not null is read by the reader of what may be null. -/
theorem optional (h : Reads bound reader v a) (hv : v ≠ .null) :
    Reads bound (optional reader) v (some a) := by
  intro text rest hspells hlength
  have hread : reader (skipSpace text) = .ok (a, rest) := by
    refine h _ _ ?_ (Nat.le_trans (skipSpace_length text) hlength)
    rwa [hspells.skipSpace_value]
  unfold Json.optional
  split
  · rename_i more htext
    rw [htext] at hspells
    cases hspells with
    | scalar hscalar => exact absurd (eq_null_of_scalar? hscalar) hv
  · rw [hread]
    rfl

/-- A field whose slot is empty is read as its value is. -/
theorem field (h : Reads bound reader v a) (name : String) {text more rest : List Char}
    (hcolon : skipSpace more = ':' :: text) (hv : Spells (.value v) (skipSpace text) rest)
    (hlength : text.length ≤ bound) :
    Json.field name none reader more = .ok (some a, rest) := by
  rw [Json.field, Container.colon_of_skipSpace hcolon, ok_bind, h _ _ hv hlength]
  rfl

/-- It is stored where the fields that have been read are kept. -/
theorem field_store {σ : Type} (h : Reads bound reader v a) (store : Option α → σ) {slot : Option α}
    (hslot : slot.isNone = true) (name : String) {text more rest : List Char}
    (hcolon : skipSpace more = ':' :: text) (hv : Spells (.value v) (skipSpace text) rest)
    (hlength : text.length ≤ bound) :
    (do let (slot, rest) ← Json.field name slot reader more; return (store slot, rest)) =
      (.ok (store (some a), rest) : Except Stop (σ × List Char)) := by
  rw [Option.isNone_iff_eq_none.mp hslot, h.field name hcolon hv hlength]
  rfl

end Reads

/-- Where an object is spelled, a record is read from what is inside. -/
theorem record_of_object {es : List (String × Json)} {text rest : List Char}
    (h : Spells (.value (.object es)) (skipSpace text) rest) (expected : String)
    (ofList ofObject : Reader α) :
    ∃ inside, Spells (.entries true es) inside rest ∧ inside.length ≤ text.length ∧
      record expected ofList ofObject text = ofObject inside := by
  obtain ⟨inside, hinside, hentries⟩ := h.exists_of_object
  refine ⟨inside, hentries, Nat.le_of_lt (length_lt_of_skipSpace hinside), ?_⟩
  rw [record, hinside]
  rfl

end MessageHarvest.Json
