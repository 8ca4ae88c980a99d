import Mathlib.Data.List.Nodup
import MessageHarvest.Proofs.Tree.Loading

/-!
# Fields in any order

The reader of a node looks at the entries of its object one after the other, and each field goes to
a slot of its own. So a slot depends only on the entries with its key (`fill`), and neither the
order of the fields matters nor any entry with another key.

* `Tree.entriesWith` are the entries that a node is written with.
* `Tree.ofJson?_of_perm`: the node is read from any object that has these entries, in any order and
  among foreign ones.
-/

namespace MessageHarvest

theorem Literal.ofJson?_toJson (value : Literal) : Literal.ofJson? value.toJson = .ok value := by
  cases value <;> rfl

namespace Tree

/-! ## One slot -/

/-- Reads the entries with one key, of which there may be one only, into a slot. -/
def fill {α : Type} (name : String) (read : Json → Except Json.ShapeFault α) (slot : Option α) :
    List (String × Json) → Except Json.ShapeFault (Option α)
  | [] => .ok slot
  | (key, v) :: entries =>
    if key = name then do fill name read (← once name slot (read v)) entries
    else fill name read slot entries

section

variable {α : Type} {name : String} {read : Json → Except Json.ShapeFault α}

theorem fill_of_ne {key : String} (h : key ≠ name) (slot : Option α) (v : Json)
    (entries : List (String × Json)) :
    fill name read slot ((key, v) :: entries) = fill name read slot entries := by
  rw [fill, if_neg h]

theorem exists_of_fill {slot result : Option α} {v : Json} {entries : List (String × Json)}
    (h : fill name read slot ((name, v) :: entries) = .ok result) :
    ∃ next, once name slot (read v) = .ok next ∧ fill name read next entries = .ok result := by
  rw [fill, if_pos rfl] at h
  exact Json.exists_of_bind_ok h

theorem fill_filter (slot : Option α) (entries : List (String × Json)) :
    fill name read slot (entries.filter (·.1 = name)) = fill name read slot entries := by
  induction entries generalizing slot with
  | nil => rfl
  | cons e entries ih =>
    obtain ⟨key, v⟩ := e
    by_cases hkey : key = name
    · rw [List.filter_cons_of_pos (by simpa using hkey)]
      simp only [fill, hkey, if_true, ih]
    · rw [List.filter_cons_of_neg (by simpa using hkey), fill_of_ne hkey, ih]

/-- The slot does not depend on the order of the entries, nor on those with other keys. -/
theorem fill_of_perm {entries fields extra : List (String × Json)}
    (hperm : entries.Perm (fields ++ extra)) (hfields : (fields.map Prod.fst).Nodup)
    (hextra : ∀ e ∈ extra, e.1 ≠ name) (slot : Option α) :
    fill name read slot entries = fill name read slot fields := by
  have hnone : extra.filter (·.1 = name) = [] := by
    simpa [List.filter_eq_nil_iff] using fun key v he => hextra (key, v) he
  have hfiltered : (entries.filter (·.1 = name)).Perm (fields.filter (·.1 = name)) := by
    have hall := hperm.filter (·.1 = name)
    rwa [List.filter_append, hnone, List.append_nil] at hall
  have hone : (fields.filter (·.1 = name)).length ≤ 1 := by
    rw [← List.countP_eq_length_filter]
    have hcount := List.nodup_iff_count_le_one.mp hfields name
    rw [List.count, List.countP_map] at hcount
    exact hcount
  have hsame : entries.filter (·.1 = name) = fields.filter (·.1 = name) := by
    generalize fields.filter (·.1 = name) = only at hfiltered hone
    match only, hone with
    | [], _ => exact hfiltered.eq_nil
    | [e], _ => exact hfiltered.eq_singleton
    | _ :: _ :: _, hmany => simp at hmany
  rw [← fill_filter, hsame, fill_filter]

end

/-! ## The slots of a node -/

/-- The kind of a node is one of the slots. -/
theorem Kind.ofEntries?_eq_fill (found : Option Kind) (entries : List (String × Json)) :
    Kind.ofEntries? found entries =
      fill "kind" Kind.ofJson? found entries >>= demand "kind" := by
  induction entries generalizing found with
  | nil => cases found <;> rfl
  | cons e entries ih =>
    obtain ⟨key, v⟩ := e
    by_cases hkey : key = "kind"
    · subst hkey
      cases found with
      | some kind => rfl
      | none =>
        cases hv : Kind.ofJson? v with
        | error fault => simp only [Kind.ofEntries?, fill, once, hv, if_true]; rfl
        | ok kind =>
          simp only [Kind.ofEntries?, fill, once, hv, if_true, Json.ok_bind, ih]
          rfl
    · rw [Kind.ofEntries?_of_ne hkey, fill_of_ne hkey, ih]

theorem partsField_ne {kind : Kind} (hkind : kind ≠ .literal) :
    kind.partsField ∉ ["kind", "name", "line", "value"] := by
  cases kind with
  | literal => exact absurd rfl hkind
  | call | other => decide

/-- The slots of a call, or of another construct, are filled one by one. -/
theorem fieldsOfEntries_node {kind : Kind} (hkind : kind ≠ .literal) {fields : Fields}
    {entries : List (String × Json)} {name : Option String} {parts : Option (List Tree)}
    {line : Option UInt64} (hname : fill "name" nameOfJson? fields.name entries = .ok name)
    (hparts : fill kind.partsField partsOfJson? fields.parts entries = .ok parts)
    (hline : fill "line" lineOfJson? fields.line entries = .ok line) :
    fieldsOfEntries kind fields entries = .ok { fields with name, parts, line } := by
  have hpartsField := partsField_ne hkind
  simp only [List.mem_cons, List.not_mem_nil, or_false, not_or] at hpartsField
  obtain ⟨-, hpartsName, hpartsLine, -⟩ := hpartsField
  induction entries generalizing fields with
  | nil =>
    cases hname
    cases hparts
    cases hline
    rfl
  | cons e entries ih =>
    obtain ⟨key, v⟩ := e
    by_cases hkeyLine : key = "line"
    · subst hkeyLine
      obtain ⟨slot, hslot, hrest⟩ := exists_of_fill hline
      rw [fill_of_ne (by decide)] at hname
      rw [fill_of_ne (Ne.symm hpartsLine)] at hparts
      simp only [fieldsOfEntries, if_true, hslot, Json.ok_bind]
      exact ih hname hparts hrest
    rw [fill_of_ne hkeyLine] at hline
    by_cases hkeyName : key = "name"
    · subst hkeyName
      obtain ⟨slot, hslot, hrest⟩ := exists_of_fill hname
      rw [fill_of_ne (Ne.symm hpartsName)] at hparts
      simp only [fieldsOfEntries, hkeyLine, hkind, if_false, if_true, hslot, Json.ok_bind]
      exact ih hrest hparts hline
    rw [fill_of_ne hkeyName] at hname
    by_cases hkeyParts : key = kind.partsField
    · subst hkeyParts
      obtain ⟨slot, hslot, hrest⟩ := exists_of_fill hparts
      simp only [fieldsOfEntries, hkeyLine, hkind, hkeyName, if_false, if_true, hslot,
        Json.ok_bind]
      exact ih hname hrest hline
    · rw [fill_of_ne hkeyParts] at hparts
      simp only [fieldsOfEntries, hkeyLine, hkind, hkeyName, hkeyParts, if_false]
      exact ih hname hparts hline

theorem fieldsOfEntries_literal {fields : Fields} {entries : List (String × Json)}
    {value : Option Literal} {line : Option UInt64}
    (hvalue : fill "value" Literal.ofJson? fields.value entries = .ok value)
    (hline : fill "line" lineOfJson? fields.line entries = .ok line) :
    fieldsOfEntries .literal fields entries = .ok { fields with value, line } := by
  induction entries generalizing fields with
  | nil =>
    cases hvalue
    cases hline
    rfl
  | cons e entries ih =>
    obtain ⟨key, v⟩ := e
    by_cases hkeyLine : key = "line"
    · subst hkeyLine
      obtain ⟨slot, hslot, hrest⟩ := exists_of_fill hline
      rw [fill_of_ne (by decide)] at hvalue
      simp only [fieldsOfEntries, if_true, hslot, Json.ok_bind]
      exact ih hvalue hrest
    rw [fill_of_ne hkeyLine] at hline
    by_cases hkeyValue : key = "value"
    · subst hkeyValue
      obtain ⟨slot, hslot, hrest⟩ := exists_of_fill hvalue
      simp only [fieldsOfEntries, hkeyLine, if_false, if_true, hslot, Json.ok_bind]
      exact ih hrest hline
    · rw [fill_of_ne hkeyValue] at hvalue
      simp only [fieldsOfEntries, hkeyLine, hkeyValue, if_false, if_true]
      exact ih hvalue hline

/-! ## Whole nodes -/

/-- The keys of the fields that nodes have. -/
def fieldNames : List String := ["kind", "name", "arguments", "children", "line", "value"]

/-- The entry for the parts of a node, or none if it is left out. -/
def partsEntries (kind : Kind) : Option (List Json) → List (String × Json)
  | none => []
  | some vs => [(kind.partsField, .array vs)]

/-- The entries of a node with parts, or without them. -/
def nodeEntries (kind : Kind) (name : String) (parts : Option (List Json)) (line : UInt64) :
    List (String × Json) :=
  ("kind", .string kind.name) :: ("name", .string name) ::
    (partsEntries kind parts ++ [("line", lineJson line)])

/-- The entries that a node is written with, when its parts are written as `parts` or left out. -/
def entriesWith : Tree → (parts : Option (List Json)) → List (String × Json)
  | call name _ line, parts => nodeEntries .call name parts line
  | literal value line, _ =>
    [("kind", .string Kind.literal.name), ("value", value.toJson), ("line", lineJson line)]
  | other name _ line, parts => nodeEntries .other name parts line

section

variable {kind : Kind} {name : String} {parts : Option (List Json)} {line : UInt64}

theorem nodup_nodeEntries (hkind : kind ≠ .literal) :
    ((nodeEntries kind name parts line).map Prod.fst).Nodup := by
  cases kind with
  | literal => exact absurd rfl hkind
  | call | other => cases parts <;> simp [nodeEntries, partsEntries, Kind.partsField]

theorem partsField_mem (hkind : kind ≠ .literal) : kind.partsField ∈ fieldNames := by
  cases kind with
  | literal => exact absurd rfl hkind
  | call | other => decide

theorem Kind.ofJson?_name (kind : Kind) : Kind.ofJson? (.string kind.name) = .ok kind := by
  cases kind <;> rfl

/-- What the slots of a node are filled with from its own entries. -/
theorem fill_nodeEntries (hkind : kind ≠ .literal) (name : String) {ts : List Tree}
    (hparts : treesOfItems (parts.getD []) = .ok ts) (line : UInt64) :
    let entries := nodeEntries kind name parts line
    fill "kind" Kind.ofJson? none entries = .ok (some kind) ∧
      fill "name" nameOfJson? none entries = .ok (some name) ∧
      fill kind.partsField partsOfJson? none entries = .ok (parts.map fun _ => ts) ∧
      fill "line" lineOfJson? none entries = .ok (some line) := by
  cases kind with
  | literal => exact absurd rfl hkind
  | call | other =>
    cases parts with
    | none =>
      simp [nodeEntries, partsEntries, fill, once, Kind.ofJson?_name, Kind.partsField, nameOfJson?,
        lineJson, lineOfJson?, Json.lineOfNumber]
    | some vs =>
      have hlist : partsOfJson? (.array vs) = .ok ts := by
        rw [partsOfJson?]
        exact hparts
      simp [nodeEntries, partsEntries, fill, once, Kind.ofJson?_name, Kind.partsField, nameOfJson?,
        lineJson, lineOfJson?, Json.lineOfNumber, hlist]

/-- A node is read from its fields in whatever order, and among foreign ones. -/
theorem ofJson?_node (hkind : kind ≠ .literal) {entries extra : List (String × Json)}
    (hperm : entries.Perm (nodeEntries kind name parts line ++ extra))
    (hextra : ∀ e ∈ extra, e.1 ∉ fieldNames) {ts : List Tree}
    (hparts : treesOfItems (parts.getD []) = .ok ts) :
    ofJson? (.object entries) = ofFields kind ⟨some name, some ts, none, some line⟩ := by
  have hfill {α : Type} {field : String} (hfield : field ∈ fieldNames)
      (read : Json → Except Json.ShapeFault α) : fill field read none entries =
        fill field read none (nodeEntries kind name parts line) :=
    fill_of_perm hperm (nodup_nodeEntries hkind)
      (fun e he heq => hextra e he (heq ▸ hfield)) none
  obtain ⟨hkindSlot, hnameSlot, hpartsSlot, hlineSlot⟩ :=
    fill_nodeEntries hkind name hparts line
  rw [← hfill (by decide)] at hkindSlot hnameSlot hlineSlot
  rw [← hfill (partsField_mem hkind)] at hpartsSlot
  rw [ofJson?, Kind.ofEntries?_eq_fill, hkindSlot, Json.ok_bind, demand, Json.ok_bind,
    fieldsOfEntries_node hkind hnameSlot hpartsSlot hlineSlot, Json.ok_bind]
  cases parts with
  | none =>
    cases hparts
    cases kind <;> rfl
  | some vs => rfl

end

theorem ofJson?_literal {value : Literal} {line : UInt64} {entries extra : List (String × Json)}
    (hperm : entries.Perm ((literal value line).entriesWith none ++ extra))
    (hextra : ∀ e ∈ extra, e.1 ∉ fieldNames) :
    ofJson? (.object entries) = .ok (literal value line) := by
  have hnodup : (((literal value line).entriesWith none).map Prod.fst).Nodup := by
    simp [entriesWith]
  have hfill {α : Type} {field : String} (hfield : field ∈ fieldNames)
      (read : Json → Except Json.ShapeFault α) : fill field read none entries =
        fill field read none ((literal value line).entriesWith none) :=
    fill_of_perm hperm hnodup (fun e he heq => hextra e he (heq ▸ hfield)) none
  have hkindSlot : fill "kind" Kind.ofJson? none entries = .ok (some .literal) := by
    rw [hfill (by decide)]
    simp [entriesWith, fill, once, Kind.ofJson?_name]
  have hvalueSlot : fill "value" Literal.ofJson? none entries = .ok (some value) := by
    rw [hfill (by decide)]
    simp [entriesWith, fill, once, Literal.ofJson?_toJson]
  have hlineSlot : fill "line" lineOfJson? none entries = .ok (some line) := by
    rw [hfill (by decide)]
    simp [entriesWith, fill, once, lineJson, lineOfJson?, Json.lineOfNumber]
  rw [ofJson?, Kind.ofEntries?_eq_fill, hkindSlot, Json.ok_bind, demand, Json.ok_bind,
    fieldsOfEntries_literal hvalueSlot hlineSlot]
  rfl

/-- Every node is read from the entries that it is written with, in whatever order and among
foreign ones. If it has no parts, the entry for them may be left out. -/
theorem ofJson?_of_perm {t : Tree} {parts : Option (List Json)}
    {entries extra : List (String × Json)} (hperm : entries.Perm (t.entriesWith parts ++ extra))
    (hextra : ∀ e ∈ extra, e.1 ∉ fieldNames)
    (hparts : treesOfItems (parts.getD []) = .ok t.children) :
    ofJson? (.object entries) = .ok t := by
  cases t with
  | call name arguments line =>
    exact ofJson?_node (show Kind.call ≠ .literal from nofun) hperm hextra hparts
  | literal value line => exact ofJson?_literal hperm hextra
  | other name children line =>
    exact ofJson?_node (show Kind.other ≠ .literal from nofun) hperm hextra hparts

end Tree

end MessageHarvest
