import MessageHarvest.Template
import MessageHarvest.Proofs.Json.Compact
import MessageHarvest.Proofs.Tree.Fields

/-!
# The forms in which a tree is loaded

Who writes a tree need not write it as `Tree.write` does. At every node the fields may come in any
order, with fields of other names among them, and the list of parts may be left out where there are
no parts. `Tree.Form` says which values are such forms of a tree.

* `Tree.ofJson?_of_form`: each of them stands for this tree.
* `Tree.parse_of_form`: so a tree without number literals is read from every layout of each of them,
  unless it nests too deeply.
* `Tree.ofText_of_form`: the same for texts of files, the written form being one of the forms.
-/

namespace MessageHarvest.Tree

open Json (Lays)

/-- The values that stand for a tree. At every node of it `kept` is what is written of the parts,
and `extra` are the entries of other names. -/
inductive Form : Tree → Json → Prop where
  | node {t : Tree} {parts : List Json} {kept : Option (List Json)}
      {entries extra : List (String × Json)} (hparts : List.Forall₂ Form t.children parts)
      (hkept : kept = some parts ∨ parts = [] ∧ kept = none)
      (hextra : ∀ e ∈ extra, e.1 ∉ fieldNames ∧ e.2.Plain)
      (hperm : entries.Perm (t.entriesWith kept ++ extra)) : Form t (.object entries)

/-! ## What is written is a form -/

theorem toJsonAll_eq_map (ts : List Tree) : toJsonAll ts = ts.map toJson := by
  induction ts with
  | nil => rfl
  | cons t ts ih => rw [toJsonAll, ih, List.map_cons]

/-- What is written for a node are its entries, no part left out. -/
theorem toJson_eq (t : Tree) :
    t.toJson = .object (t.entriesWith (some (t.children.map toJson))) := by
  cases t with
  | literal value line => rfl
  | call name arguments line | other name arguments line =>
    rw [toJson, toJsonAll_eq_map]
    rfl

/-- A node whose parts are in their forms is in one itself, if nothing is added. -/
theorem form_object {t : Tree} {form : Tree → Json} (h : ∀ c ∈ t.children, Form c (form c))
    {kept : Option (List Json)}
    (hkept : kept = some (t.children.map form) ∨ t.children.map form = [] ∧ kept = none)
    {entries : List (String × Json)} (hperm : entries.Perm (t.entriesWith kept)) :
    Form t (.object entries) := by
  refine .node (List.forall₂_map_right_iff.mpr (List.forall₂_same.mpr h)) hkept
    (List.forall_mem_nil _) ?_
  rw [List.append_nil]
  exact hperm

theorem form_toJson (t : Tree) : Form t t.toJson := by
  induction t using ofChildren with
  | h t ih =>
    rw [toJson_eq]
    exact form_object ih (.inl rfl) (.refl _)

/-! ## The forms of a tree stand for it -/

theorem treesOfItems_of_forms {ts : List Tree} {vs : List Json} (h : List.Forall₂ Form ts vs)
    (hread : ∀ t ∈ ts, ∀ v, Form t v → ofJson? v = .ok t) : treesOfItems vs = .ok ts := by
  induction h with
  | nil => rfl
  | @cons t v ts vs ht _ ih =>
    have hfirst := hread t List.mem_cons_self v ht
    have hlater := ih fun u hu => hread u (List.mem_cons_of_mem t hu)
    simp only [treesOfItems, hfirst, hlater, Json.ok_bind]
    rfl

theorem ofJson?_of_form {t : Tree} {v : Json} (h : Form t v) : ofJson? v = .ok t := by
  induction t using ofChildren generalizing v with
  | h t ih =>
    cases h with
    | node hparts hkept hextra hperm =>
      have hread := treesOfItems_of_forms hparts fun c hc w hw => ih c hc hw
      refine ofJson?_of_perm hperm (fun e he => (hextra e he).1) ?_
      rcases hkept with rfl | ⟨rfl, rfl⟩
      · exact hread
      · exact hread

/-! ## Trees without numbers -/

/-- No literal of the tree is a number. -/
def NumberFree (t : Tree) : Prop :=
  ∀ node ∈ t.nodes, ∀ x, node.literal? ≠ some (.number x)

theorem numberFree_iff {t : Tree} :
    t.NumberFree ↔ (∀ x, t.literal? ≠ some (.number x)) ∧ ∀ c ∈ t.children, c.NumberFree := by
  simp only [NumberFree, nodes_eq t, nodesOfAll_eq_flatMap, List.forall_mem_cons,
    List.mem_flatMap]
  constructor
  · rintro ⟨hself, hparts⟩
    exact ⟨hself, fun c hc node hnode => hparts node ⟨c, hc, hnode⟩⟩
  · rintro ⟨hself, hparts⟩
    refine ⟨hself, ?_⟩
    rintro node ⟨c, hc, hnode⟩
    exact hparts c hc node hnode

theorem plain_partsEntries (kind : Kind) {kept : Option (List Json)}
    (h : ∀ v ∈ kept.getD [], v.Plain) : ∀ e ∈ partsEntries kind kept, e.2.Plain := by
  cases kept with
  | none => nofun
  | some parts =>
    intro e he
    rw [List.mem_singleton.mp he]
    exact .array h

theorem plain_entriesWith {t : Tree} (hself : ∀ x, t.literal? ≠ some (.number x))
    {kept : Option (List Json)} (h : ∀ v ∈ kept.getD [], v.Plain) :
    ∀ e ∈ t.entriesWith kept, e.2.Plain := by
  cases t with
  | call name arguments line | other name arguments line =>
    simp only [entriesWith, nodeEntries, List.forall_mem_cons, List.forall_mem_append]
    exact ⟨.string _, .string _, plain_partsEntries _ h, .natural _, List.forall_mem_nil _⟩
  | literal value line =>
    have hvalue : value.toJson.Plain := by
      cases value with
      | string text => exact .string text
      | number x => exact absurd rfl (hself x)
      | bool value => exact .bool value
      | null => exact .null
    simp only [entriesWith, List.forall_mem_cons]
    exact ⟨.string _, hvalue, .natural _, List.forall_mem_nil _⟩

theorem exists_of_forall₂_mem {α β : Type} {r : α → β → Prop} {as : List α} {bs : List β}
    (h : List.Forall₂ r as bs) {b : β} (hb : b ∈ bs) : ∃ a ∈ as, r a b := by
  induction h with
  | nil => cases hb
  | cons hab _ ih =>
    rcases List.mem_cons.mp hb with rfl | hb
    · exact ⟨_, List.mem_cons_self, hab⟩
    · obtain ⟨a, ha, hr⟩ := ih hb
      exact ⟨a, List.mem_cons_of_mem _ ha, hr⟩

/-- The only numbers in a form are natural, the lines first of all. -/
theorem plain_of_form {t : Tree} {v : Json} (hfree : t.NumberFree) (h : Form t v) : v.Plain := by
  induction t using ofChildren generalizing v with
  | h t ih =>
    obtain ⟨hself, hchildren⟩ := numberFree_iff.mp hfree
    cases h with
    | @node _ parts kept entries extra hparts hkept hextra hperm =>
      have hall : ∀ v ∈ parts, v.Plain := by
        intro v hv
        obtain ⟨c, hc, hform⟩ := exists_of_forall₂_mem hparts hv
        exact ih c hc (hchildren c hc) hform
      have hplain : ∀ v ∈ kept.getD [], v.Plain := by
        rcases hkept with rfl | ⟨rfl, rfl⟩
        · exact hall
        · exact hall
      refine .object fun e he => ?_
      rcases List.mem_append.mp (hperm.mem_iff.mp he) with hown | hforeign
      · exact plain_entriesWith hself hplain e hown
      · exact (hextra e hforeign).2

/-! ## Loading the forms -/

theorem kind_of_mem_entriesWith {t : Tree} {kept : Option (List Json)} {v : Json}
    (h : ("kind", v) ∈ t.entriesWith kept) : ∃ name, v = .string name := by
  cases t with
  | call name arguments line | other name arguments line =>
    cases kept <;> simp [entriesWith, nodeEntries, partsEntries, Kind.partsField] at h <;>
      exact ⟨_, h⟩
  | literal value line =>
    simp [entriesWith] at h
    exact ⟨_, h⟩

/-- A form is an object that names its kind. -/
theorem exists_of_form {t : Tree} {v : Json} (h : Form t v) :
    ∃ entries, v = .object entries ∧ NamesKind entries := by
  cases h with
  | node hparts hkept hextra hperm =>
    refine ⟨_, rfl, fun w hw => ?_⟩
    rcases List.mem_append.mp (hperm.mem_iff.mp hw) with hown | hforeign
    · exact kind_of_mem_entriesWith hown
    · exact absurd (show "kind" ∈ fieldNames by decide) (hextra _ hforeign).1

/-- Every layout of every form of a tree is read as this tree, if the form is not too deep. -/
theorem parse_of_form {t : Tree} {v : Json} {source : String} (hfree : t.NumberFree)
    (h : Form t v) (hlays : Lays v.tokens source.toList) :
    (v.depth ≤ 127 → parse source = .ok t) ∧
      (127 < v.depth → ∃ position, parse source = .error ⟨.text .tooDeep, some position⟩) := by
  have hplain := plain_of_form hfree h
  have htree := ofJson?_of_form h
  obtain ⟨entries, rfl, hnames⟩ := exists_of_form h
  exact parse_of_lays hlays hplain hnames htree

/-- The compact form of a form is one of its layouts. -/
theorem lays_compact_of_form {t : Tree} {v : Json} (hfree : t.NumberFree) (h : Form t v) :
    Lays v.tokens v.compact.toList := by
  rw [Json.compact, String.toList_ofList]
  exact (plain_of_form hfree h).lays_compact

theorem parse_compact_of_form {t : Tree} {v : Json} (hfree : t.NumberFree) (h : Form t v) :
    (v.depth ≤ 127 → parse v.compact = .ok t) ∧
      (127 < v.depth → ∃ position, parse v.compact = .error ⟨.text .tooDeep, some position⟩) :=
  parse_of_form hfree h (lays_compact_of_form hfree h)

theorem ofText_eq_ok {source file : String} {t : Tree} :
    ofText source file = .ok t ↔ parse source = .ok t := by
  rw [ofText]
  cases parse source with
  | error e => exact ⟨nofun, nofun⟩
  | ok u =>
    constructor
    · intro h
      cases h
      rfl
    · intro h
      cases h
      rfl

theorem ofText_eq_error {source file : String} {e : Json.ReadError} (h : parse source = .error e) :
    ofText source file = .error (.malformed file e) := by
  rw [ofText, h]
  rfl

/-- A tree without number literals is loaded from every layout of every form of it that nests at
most 127 containers, and from no other layout. The written form of the tree is one of the forms, in
one of its layouts. -/
theorem ofText_of_form {t : Tree} (hfree : t.NumberFree) (file : String) :
    (Form t t.toJson ∧ Lays t.toJson.tokens t.write.toList) ∧
      ∀ (v : Json) (source : String), Form t v → Lays v.tokens source.toList →
        (v.depth ≤ 127 → ofText source file = .ok t) ∧
          (127 < v.depth → ∃ position,
            ofText source file = .error (.malformed file ⟨.text .tooDeep, some position⟩)) := by
  refine ⟨⟨form_toJson t, lays_compact_of_form hfree (form_toJson t)⟩, ?_⟩
  intro v source hform hlays
  obtain ⟨hloaded, hrefused⟩ := parse_of_form hfree hform hlays
  refine ⟨fun hle => ofText_eq_ok.mpr (hloaded hle), fun hlt => ?_⟩
  obtain ⟨position, hposition⟩ := hrefused hlt
  exact ⟨position, ofText_eq_error hposition⟩

/-- The fields of a call in reverse, those of its argument too, which has no list of parts. A field
of another name is added, in which there is a field that is none of the node. -/
def reversed : Json :=
  .object [("origin", .object [("kind", .null)]), ("line", lineJson 3),
    ("arguments", .array [
      .object [("line", lineJson 3), ("name", .string "text"), ("kind", .string "other")]]),
    ("name", .string "_"), ("kind", .string "function_call")]

theorem form_reversed : Form (call "_" [other "text" [] 3] 3) reversed := by
  have horigin : ∀ e ∈ [("origin", Json.object [("kind", .null)])],
      e.1 ∉ fieldNames ∧ e.2.Plain := by
    intro e he
    rw [List.mem_singleton.mp he]
    refine ⟨by decide, .object fun f hf => ?_⟩
    rw [List.mem_singleton.mp hf]
    exact .null
  have hargument : Form (other "text" [] 3)
      (.object ((other "text" [] 3).entriesWith none ++ []).reverse) :=
    .node .nil (.inr ⟨rfl, rfl⟩) (List.forall_mem_nil _) (List.reverse_perm _)
  have hcall : Form (call "_" [other "text" [] 3] 3)
      (.object ((call "_" [other "text" [] 3] 3).entriesWith (some [_]) ++ [_]).reverse) :=
    .node (.cons hargument .nil) (.inl rfl) horigin (List.reverse_perm _)
  exact hcall

/-- It is loaded also where each token stands on a line of its own. -/
theorem ofText_reversed :
    let t := call "_" [other "text" [] 3] 3
    let source := String.ofList (reversed.tokens.flatMap fun token => ['\n', ' '] ++ token.chars)
    t.NumberFree ∧ Form t reversed ∧ Lays reversed.tokens source.toList ∧
      ofText source "page.ast.json" = .ok t := by
  intro t source
  have hfree : t.NumberFree := by
    refine numberFree_iff.mpr ⟨nofun, fun c hc => ?_⟩
    rw [List.mem_singleton.mp hc]
    exact numberFree_iff.mpr ⟨nofun, nofun⟩
  have hspace : ∀ c ∈ ['\n', ' '], Json.isSpace c := by simp [Json.isSpace]
  have hlays : Lays reversed.tokens source.toList := by
    rw [String.toList_ofList]
    exact Json.lays_flatMap hspace reversed.tokens
  have hloaded := (ofText_of_form hfree "page.ast.json").2 reversed source form_reversed hlays
  exact ⟨hfree, form_reversed, hlays, hloaded.1 (by decide)⟩

end MessageHarvest.Tree
