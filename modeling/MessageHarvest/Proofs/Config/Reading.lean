import MessageHarvest.Config
import MessageHarvest.Proofs.Json.Compact
import MessageHarvest.Proofs.Json.Pretty
import MessageHarvest.Proofs.Json.Record

/-!
# Configurations are read back

A text may give only some of the fields of a configuration, in any order and layout, and other
fields among them. What it gives is read as it was written, what it leaves out has its default
(`Config.restrict`), and what is not known is passed over.

* `Config.parse_of_lays`: the configuration is read from every layout of such an object.
* `Config.parse_of_fields`: so it is read from both forms in which it is written.
-/

namespace MessageHarvest.Config

open Json (Spells Reads skipSpace)

/-- The names of the fields that are read. -/
def knownNames : List String := ["includes", "ignores", "onError"]

/-- The fields of a configuration as they are written. -/
def entries (config : Config) : List (String × Json) :=
  [("includes", textsJson config.includes), ("ignores", textsJson config.ignores),
    ("onError", .string config.policy.name)]

theorem toJson_eq (config : Config) : config.toJson = .object config.entries := rfl

/-- The fields of these names as they are written. -/
def entriesOf (config : Config) (names : List String) : List (String × Json) :=
  config.entries.filter (·.1 ∈ names)

/-- The configuration with its fields of these names, and defaults for the others. -/
def restrict (config : Config) (names : List String) : Config where
  includes := if "includes" ∈ names then config.includes else ["templates"]
  ignores := if "ignores" ∈ names then config.ignores else []
  policy := if "onError" ∈ names then config.policy else .skip

theorem plain_textsJson (texts : List String) : (textsJson texts).Plain := by
  refine .array fun v hv => ?_
  obtain ⟨text, -, rfl⟩ := List.mem_map.mp hv
  exact .string text

theorem plain_entries (config : Config) : ∀ e ∈ config.entries, e.2.Plain := by
  simp only [entries, List.forall_mem_cons]
  exact ⟨plain_textsJson _, plain_textsJson _, .string _, List.forall_mem_nil _⟩

theorem entriesOf_knownNames (config : Config) :
    config.entriesOf knownNames = config.entries := by
  simp [entriesOf, entries, knownNames]

theorem restrict_knownNames (config : Config) : config.restrict knownNames = config := by
  simp [restrict, knownNames]

/-! ## Slots -/

/-- Whether the slot of a field is empty. -/
def Fields.isOpen (fields : Fields) : (key : String) → Bool
  | "includes" => fields.includes.isNone
  | "ignores" => fields.ignores.isNone
  | "onError" => fields.policy.isNone
  | _ => false

/-- The fields with the slot of one filled from a configuration. -/
def Fields.fill (config : Config) (fields : Fields) (e : String × Json) : Fields :=
  match e.1 with
  | "includes" => { fields with includes := some config.includes }
  | "ignores" => { fields with ignores := some config.ignores }
  | "onError" => { fields with policy := some config.policy }
  | _ => fields

section

variable {config : Config} {fields : Fields} {e f : String × Json}

theorem isOpen_fill (he : e ∈ config.entries) (hf : f ∈ config.entries) (hne : e.1 ≠ f.1) :
    (fields.fill config e).isOpen f.1 = fields.isOpen f.1 := by
  simp only [entries, List.mem_cons, List.not_mem_nil, or_false] at he hf
  rcases he with rfl | rfl | rfl <;> rcases hf with rfl | rfl | rfl <;>
    first | rfl | exact absurd rfl hne

/-- The slots may be filled in any order. -/
theorem fill_comm (he : e ∈ config.entries) (hf : f ∈ config.entries) (fields : Fields) :
    (fields.fill config e).fill config f = (fields.fill config f).fill config e := by
  simp only [entries, List.mem_cons, List.not_mem_nil, or_false] at he hf
  rcases he with rfl | rfl | rfl <;> rcases hf with rfl | rfl | rfl <;> rfl

theorem fill_other (he : e.1 ∉ knownNames) (fields : Fields) : fields.fill config e = fields := by
  simp only [knownNames, List.mem_cons, List.not_mem_nil, or_false, not_or] at he
  unfold Fields.fill
  split <;> simp_all

/-- Slots that are filled from the fields of these names, one after the other, and from no others,
make up the configuration with defaults for the others. -/
theorem ofFields_foldl_fill (config : Config) (names : List String) :
    ofFields ((config.entriesOf names).foldl (Fields.fill config) {}) = config.restrict names := by
  by_cases hincludes : "includes" ∈ names <;> by_cases hignores : "ignores" ∈ names <;>
    by_cases hpolicy : "onError" ∈ names <;>
    simp [entriesOf, entries, restrict, hincludes, hignores, hpolicy, Fields.fill, ofFields,
      default]

end

/-! ## Reading -/

theorem mem_names (policy : FaultPolicy) : policy.name ∈ FaultPolicy.all.map FaultPolicy.name := by
  cases policy <;> decide

theorem ofName?_name (policy : FaultPolicy) : FaultPolicy.ofName? policy.name = some policy := by
  cases policy <;> decide

theorem reads_policyReader (bound : Nat) (policy : FaultPolicy) :
    Reads bound policyReader (.string policy.name) policy := by
  intro text rest h hlength
  have hname := Json.reads_caseName bound (mem_names policy) text rest h hlength
  simp only [policyReader, hname, Json.ok_bind, ofName?_name]
  rfl

/-- A field of the configuration whose slot is empty is read into it. -/
theorem readField_of_spells {config : Config} {fields : Fields} {key : String} {v : Json}
    (he : (key, v) ∈ config.entries) (hopen : fields.isOpen key = true)
    {text more rest : List Char} {bound : Nat} (hcolon : skipSpace more = ':' :: text)
    (hv : Spells (.value v) (skipSpace text) rest) (hlength : text.length ≤ bound) :
    readField bound fields key more = .ok (fields.fill config (key, v), rest) := by
  simp only [entries, List.mem_cons, List.not_mem_nil, or_false, Prod.mk.injEq] at he
  rcases he with ⟨rfl, rfl⟩ | ⟨rfl, rfl⟩ | ⟨rfl, rfl⟩
  · exact (Json.reads_texts bound config.includes).field_store
      (fun includes => { fields with includes }) hopen "includes" hcolon hv hlength
  · exact (Json.reads_texts bound config.ignores).field_store
      (fun ignores => { fields with ignores }) hopen "ignores" hcolon hv hlength
  · exact (reads_policyReader bound config.policy).field_store
      (fun policy => { fields with policy }) hopen "onError" hcolon hv hlength

theorem readField_other {fields : Fields} {key : String} (hkey : key ∉ knownNames) {bound : Nat}
    {more rest : List Char} (hpassed : Json.unknownField bound more = .ok rest) :
    readField bound fields key more = .ok (fields, rest) := by
  simp only [knownNames, List.mem_cons, List.not_mem_nil, or_false, not_or] at hkey
  unfold readField
  split <;> simp_all

theorem readsFields (config : Config) (bound : Nat) :
    Json.ReadsFields bound config.entries Fields.isOpen (Fields.fill config) (readField bound) where
  nodup := by simp [entries]
  reads he hopen hcolon hv hlength := readField_of_spells he hopen hcolon hv hlength
  passes hkey hpassed := readField_other hkey hpassed
  isOpen_fill he hf hne _ := isOpen_fill he hf hne
  fill_comm := fill_comm
  fill_other := fill_other

section

variable {config : Config} {names : List String} {es others : List (String × Json)}

/-- The configuration is read wherever an object is spelled that has its fields of these names and
others that are not known. -/
theorem reads_reader (hothers : ∀ e ∈ others, e.1 ∉ knownNames)
    (hperm : es.Perm (config.entriesOf names ++ others)) (bound : Nat) :
    Reads bound (reader bound) (.object es) (config.restrict names) := by
  have hopen : ∀ e ∈ config.entries, Fields.isOpen {} e.1 = true := by simp [entries, Fields.isOpen]
  refine (config.readsFields bound).reads_record hperm List.filter_sublist hothers hopen ?_
  intro rest
  rw [← ofFields_foldl_fill]
  rfl

/-- It is read from every layout of such an object. -/
theorem parse_of_lays (hothers : ∀ e ∈ others, e.1 ∉ knownNames ∧ e.2.Plain)
    (hperm : es.Perm (config.entriesOf names ++ others)) {source : String}
    (h : Json.Lays (Json.object es).tokens source.toList) :
    parse source = .ok (config.restrict names) := by
  have hplain : (Json.object es).Plain := by
    refine .object fun e he => ?_
    rcases List.mem_append.mp (hperm.mem_iff.mp he) with hmem | hmem
    · exact config.plain_entries e (List.mem_of_mem_filter hmem)
    · exact (hothers e hmem).2
  exact hplain.read_of_reads (reads_reader (fun e he => (hothers e he).1) hperm) h

end

/-! ## Written configurations -/

theorem plain_toJson (config : Config) : config.toJson.Plain := by
  rw [toJson_eq]
  exact .object config.plain_entries

/-- The whole configuration is read from every layout of its written form. -/
theorem parse_of_lays_toJson {config : Config} {source : String}
    (h : Json.Lays config.toJson.tokens source.toList) : parse source = .ok config := by
  have hperm : config.entries.Perm (config.entriesOf knownNames ++ []) := by
    rw [entriesOf_knownNames, List.append_nil]
  rw [toJson_eq] at h
  have hread := parse_of_lays (List.forall_mem_nil _) hperm h
  rwa [restrict_knownNames] at hread

theorem parse_write (config : Config) : parse config.write = .ok config := by
  refine parse_of_lays_toJson ?_
  rw [write, Json.compact, String.toList_ofList]
  exact config.plain_toJson.lays_compact

theorem parse_pretty (config : Config) : parse config.toJson.pretty = .ok config := by
  refine parse_of_lays_toJson ?_
  rw [Json.pretty, String.toList_ofList]
  exact config.plain_toJson.lays_pretty 0

/-- From an object that has the fields of these names as they are written, in any order and layout
and with any fields among them that are not known, these fields are read, and the others have their
defaults. So a configuration is read from both its written forms. -/
theorem parse_of_fields (config : Config) :
    (∀ (names : List String) (es others : List (String × Json)) (source : String),
        (∀ e ∈ others, e.1 ∉ knownNames ∧ e.2.Plain) →
        es.Perm (config.entriesOf names ++ others) →
        Json.Lays (Json.object es).tokens source.toList →
        parse source = .ok (config.restrict names)) ∧
      parse config.write = .ok config ∧ parse config.toJson.pretty = .ok config := by
  refine ⟨?_, config.parse_write, config.parse_pretty⟩
  intro names es others source hothers hperm hlays
  exact parse_of_lays hothers hperm hlays

/-- A configuration with texts that have to be escaped. -/
def quoting : Config where
  includes := ["pages/\"a\".json", "läden\n"]
  ignores := ["**/\\[x\\]"]
  policy := .abort

/-- Fields that are not known. There is one inside that would be, and one without a name. -/
def strays : List (String × Json) :=
  [("origin", .object [("includes", .array [.null, .bool true])]), ("", .string "ignores")]

/-- Two of three fields are read, in reverse, behind others, and with each token on a line of its
own. -/
theorem parse_of_fields_quoting :
    let es := (quoting.entriesOf ["onError", "includes"] ++ strays).reverse
    let source :=
      String.ofList ((Json.object es).tokens.flatMap fun token => ['\n', ' '] ++ token.chars)
    (∀ e ∈ strays, e.1 ∉ knownNames ∧ e.2.Plain) ∧
      es.Perm (quoting.entriesOf ["onError", "includes"] ++ strays) ∧
      Json.Lays (Json.object es).tokens source.toList ∧
      parse source = .ok { includes := quoting.includes, ignores := [], policy := .abort } := by
  intro es source
  have hstrays : ∀ e ∈ strays, e.1 ∉ knownNames ∧ e.2.Plain := by
    have hlist : (Json.array [.null, .bool true]).Plain := by
      refine .array ?_
      simp only [List.forall_mem_cons]
      exact ⟨.null, .bool true, List.forall_mem_nil _⟩
    have horigin : (Json.object [("includes", .array [.null, .bool true])]).Plain :=
      .object (List.forall_mem_singleton.mpr hlist)
    simp only [strays, List.forall_mem_cons]
    exact ⟨⟨by decide, horigin⟩, ⟨by decide, .string _⟩, List.forall_mem_nil _⟩
  have hspace : ∀ c ∈ ['\n', ' '], Json.isSpace c := by simp [Json.isSpace]
  have hlays : Json.Lays (Json.object es).tokens source.toList := by
    rw [String.toList_ofList]
    exact Json.lays_flatMap hspace _
  have hperm : es.Perm (quoting.entriesOf ["onError", "includes"] ++ strays) :=
    List.reverse_perm _
  exact ⟨hstrays, hperm, hlays, (parse_of_fields quoting).1 _ es strays source hstrays hperm hlays⟩

end MessageHarvest.Config
