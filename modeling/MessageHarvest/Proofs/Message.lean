import MessageHarvest.Message.Format
import MessageHarvest.Proofs.Json.Record

/-!
# Messages are read back

A message is read from an object of the fields that are written of it, in whatever order and layout.
Each field has a slot of its own, which is empty until the field is read (`readsFields`).

* `Message.reads_reader`: the message is read wherever such an object is spelled.
* `Message.parse_of_lays`: so it is read from every layout of the object.
-/

namespace MessageHarvest.Message

open Json (Spells Reads skipSpace)

/-- The fields of a message as they are written. -/
def entries (m : Message) : List (String × Json) :=
  [("text", .string m.text), ("plural_text", optionalJson m.plural), ("domain", .string m.domain),
    ("notes", optionalJson m.notes), ("context", optionalJson m.context),
    ("line", .number (.natural m.line))]

theorem plain_entries (m : Message) : ∀ e ∈ m.entries, e.2.Plain := by
  have hoptional : ∀ text : Option String, (optionalJson text).Plain := by
    intro text
    cases text with
    | none => exact .null
    | some text => exact .string text
  simp only [entries, List.forall_mem_cons]
  exact ⟨.string _, hoptional _, .string _, hoptional _, hoptional _, .natural _,
    List.forall_mem_nil _⟩

/-! ## Slots -/

/-- Whether the slot of a field is empty. -/
def Fields.isOpen (fields : Fields) : (key : String) → Bool
  | "text" => fields.text.isNone
  | "plural_text" => fields.plural.isNone
  | "domain" => fields.domain.isNone
  | "notes" => fields.notes.isNone
  | "context" => fields.context.isNone
  | "line" => fields.line.isNone
  | _ => false

/-- The fields with the slot of one filled from a message. -/
def Fields.fill (m : Message) (fields : Fields) (e : String × Json) : Fields :=
  match e.1 with
  | "text" => { fields with text := some m.text }
  | "plural_text" => { fields with plural := some m.plural }
  | "domain" => { fields with domain := some m.domain }
  | "notes" => { fields with notes := some m.notes }
  | "context" => { fields with context := some m.context }
  | "line" => { fields with line := some m.line }
  | _ => fields

section

variable {m : Message} {fields : Fields} {e f : String × Json}

theorem isOpen_fill (he : e ∈ m.entries) (hf : f ∈ m.entries) (hne : e.1 ≠ f.1) :
    (fields.fill m e).isOpen f.1 = fields.isOpen f.1 := by
  simp only [entries, List.mem_cons, List.not_mem_nil, or_false] at he hf
  rcases he with rfl | rfl | rfl | rfl | rfl | rfl <;>
    rcases hf with rfl | rfl | rfl | rfl | rfl | rfl <;>
    first | rfl | exact absurd rfl hne

/-- The slots may be filled in any order. -/
theorem fill_comm (he : e ∈ m.entries) (hf : f ∈ m.entries) (fields : Fields) :
    (fields.fill m e).fill m f = (fields.fill m f).fill m e := by
  simp only [entries, List.mem_cons, List.not_mem_nil, or_false] at he hf
  rcases he with rfl | rfl | rfl | rfl | rfl | rfl <;>
    rcases hf with rfl | rfl | rfl | rfl | rfl | rfl <;> rfl

theorem fill_other (he : e.1 ∉ m.entries.map Prod.fst) (fields : Fields) :
    fields.fill m e = fields := by
  simp only [entries, List.map_cons, List.map_nil, List.mem_cons, List.not_mem_nil, or_false,
    not_or] at he
  unfold Fields.fill
  split <;> simp_all

end

/-! ## Reading -/

theorem reads_optionalJson (bound : Nat) (text : Option String) :
    Reads bound (Json.optional Json.text) (optionalJson text) text := by
  cases text with
  | none => exact Json.reads_optional_null bound _
  | some text => exact (Json.reads_textAs bound _ text).optional nofun

/-- A field of the message whose slot is empty is read into it. -/
theorem readField_of_spells {m : Message} {fields : Fields} {key : String} {v : Json}
    (he : (key, v) ∈ m.entries) (hopen : fields.isOpen key = true) {text more rest : List Char}
    {bound : Nat} (hcolon : skipSpace more = ':' :: text)
    (hv : Spells (.value v) (skipSpace text) rest) (hlength : text.length ≤ bound) :
    readField bound fields key more = .ok (fields.fill m (key, v), rest) := by
  simp only [entries, List.mem_cons, List.not_mem_nil, or_false, Prod.mk.injEq] at he
  rcases he with ⟨rfl, rfl⟩ | ⟨rfl, rfl⟩ | ⟨rfl, rfl⟩ | ⟨rfl, rfl⟩ | ⟨rfl, rfl⟩ | ⟨rfl, rfl⟩
  · exact (Json.reads_textAs bound _ m.text).field_store (fun text => { fields with text }) hopen
      "text" hcolon hv hlength
  · exact (reads_optionalJson bound m.plural).field_store (fun plural => { fields with plural })
      hopen "plural_text" hcolon hv hlength
  · exact (Json.reads_textAs bound _ m.domain).field_store (fun domain => { fields with domain })
      hopen "domain" hcolon hv hlength
  · exact (reads_optionalJson bound m.notes).field_store (fun notes => { fields with notes }) hopen
      "notes" hcolon hv hlength
  · exact (reads_optionalJson bound m.context).field_store (fun context => { fields with context })
      hopen "context" hcolon hv hlength
  · exact (Json.reads_line bound m.line).field_store (fun line => { fields with line }) hopen
      "line" hcolon hv hlength

theorem readField_other {m : Message} {fields : Fields} {key : String}
    (hkey : key ∉ m.entries.map Prod.fst) {bound : Nat} {more rest : List Char}
    (hpassed : Json.unknownField bound more = .ok rest) :
    readField bound fields key more = .ok (fields, rest) := by
  simp only [entries, List.map_cons, List.map_nil, List.mem_cons, List.not_mem_nil, or_false,
    not_or] at hkey
  unfold readField
  split <;> simp_all

theorem readsFields (m : Message) (bound : Nat) :
    Json.ReadsFields bound m.entries Fields.isOpen (Fields.fill m) (readField bound) where
  nodup := by simp [entries]
  reads he hopen hcolon hv hlength := readField_of_spells he hopen hcolon hv hlength
  passes hkey hpassed := readField_other hkey hpassed
  isOpen_fill he hf hne _ := isOpen_fill he hf hne
  fill_comm := fill_comm
  fill_other := fill_other

/-- The message is read wherever an object of its fields is spelled, in whatever order. -/
theorem reads_reader {m : Message} {es : List (String × Json)} (hperm : es.Perm m.entries)
    (bound : Nat) : Reads bound (reader bound) (.object es) m := by
  have hopen : ∀ e ∈ m.entries, Fields.isOpen {} e.1 = true := by simp [entries, Fields.isOpen]
  rw [← List.append_nil m.entries] at hperm
  exact (m.readsFields bound).reads_record hperm (List.Sublist.refl _) (List.forall_mem_nil _) hopen
    fun _ => rfl

/-- The message is read from every layout of an object of its fields. -/
theorem parse_of_lays {m : Message} {es : List (String × Json)} (hperm : es.Perm m.entries)
    {source : String} (h : Json.Lays (Json.object es).tokens source.toList) :
    parse source = .ok m := by
  have hplain : (Json.object es).Plain :=
    .object fun e he => m.plain_entries e (hperm.mem_iff.mp he)
  exact hplain.read_of_reads (reads_reader hperm) h

end MessageHarvest.Message
