import MessageHarvest.Proofs.Tree.Levels

/-!
# Trees that are loaded, written and loaded again

A text may leave out the empty list of a node without parts; the written form never does. So a tree
can be loaded of which the written form nests too deeply: it has 64 levels, and on the last of them
a node that is no literal.

* `Tree.brief` writes a tree without its empty lists. `Tree.parse_brief`: so written, every tree of
  at most 64 levels is loaded, which no tree of more levels is.
* `Tree.loaded_again_iff`: which of the trees that are loaded are loaded again from their written
  form.
* `Tree.not_loaded_again`: one that is not.
-/

namespace MessageHarvest.Tree

/-! ## Loading from the written form -/

/-- A tree is loaded from its written form, if the nodes on the 64th level are literals and there
are no others below. -/
theorem parse_write {t : Tree} (h : t.NumberFree) :
    ((∀ node ∈ t.onLevel 63, node.kind = .literal) → parse t.write = .ok t) ∧
      ((∃ node ∈ t.onLevel 63, node.kind ≠ .literal) →
        ∃ position, parse t.write = .error ⟨.text .tooDeep, some position⟩) := by
  have hdepth : t.toJson.depth ≤ 127 ↔ ∀ node ∈ t.onLevel 63, node.kind = .literal := by
    rw [depth_toJson]
    exact containerDepth_le_iff (n := 63)
  obtain ⟨hloaded, hrefused⟩ := parse_compact_of_form h (form_toJson t)
  refine ⟨fun hall => hloaded (hdepth.mpr hall), ?_⟩
  rintro ⟨node, hnode, hkind⟩
  apply hrefused
  apply Nat.lt_of_not_le
  intro hle
  exact hkind (hdepth.mp hle node hnode)

/-! ## Trees written without their empty lists -/

/-- The entry for the parts of a node. It is left out if there are none. -/
def partsEntry (kind : Kind) : List Json → List (String × Json)
  | [] => []
  | v :: vs => [(kind.partsField, .array (v :: vs))]

/-- The entries of a node behind its kind. -/
def briefFields (kind : Kind) (name : String) (parts : List Json) (line : UInt64) :
    List (String × Json) :=
  ("name", .string name) :: ("line", lineJson line) :: partsEntry kind parts

mutual

/-- The value of a tree without empty lists. -/
def toBriefJson : Tree → Json
  | call name arguments line =>
    .object (("kind", .string Kind.call.name) ::
      briefFields .call name (toBriefJsonAll arguments) line)
  | literal value line => toJson (literal value line)
  | other name children line =>
    .object (("kind", .string Kind.other.name) ::
      briefFields .other name (toBriefJsonAll children) line)

def toBriefJsonAll : List Tree → List Json
  | [] => []
  | t :: ts => t.toBriefJson :: toBriefJsonAll ts

end

/-- A text of the tree without empty lists. -/
def brief (t : Tree) : String :=
  t.toBriefJson.compact

theorem toBriefJsonAll_eq_map (ts : List Tree) : toBriefJsonAll ts = ts.map toBriefJson := by
  induction ts with
  | nil => rfl
  | cons t ts ih => rw [toBriefJsonAll, ih, List.map_cons]

/-- The brief fields are those of the node, without the parts if there are none. -/
theorem exists_kept_perm (kind : Kind) (name : String) (parts : List Json) (line : UInt64) :
    ∃ kept, (kept = some parts ∨ parts = [] ∧ kept = none) ∧
      (("kind", .string kind.name) :: briefFields kind name parts line).Perm
        (nodeEntries kind name kept line) := by
  have hperm : ∀ list : List (String × Json),
      (("kind", .string kind.name) :: ("name", .string name) ::
          ("line", lineJson line) :: list).Perm
        (("kind", .string kind.name) :: ("name", .string name) ::
          (list ++ [("line", lineJson line)])) := by
    intro list
    exact ((List.perm_append_singleton _ list).symm.cons _).cons _
  cases parts with
  | nil => exact ⟨none, .inr ⟨rfl, rfl⟩, hperm (partsEntries kind none)⟩
  | cons v vs => exact ⟨some (v :: vs), .inl rfl, hperm (partsEntries kind (some (v :: vs)))⟩

/-- The brief form is a form of the tree. -/
theorem form_toBriefJson (t : Tree) : Form t t.toBriefJson := by
  induction t using ofChildren with
  | h t ih =>
    cases t with
    | literal value line => exact form_toJson (literal value line)
    | call name arguments line =>
      obtain ⟨kept, hkept, hperm⟩ :=
        exists_kept_perm .call name (arguments.map toBriefJson) line
      rw [toBriefJson, toBriefJsonAll_eq_map]
      exact form_object ih hkept hperm
    | other name children line =>
      obtain ⟨kept, hkept, hperm⟩ :=
        exists_kept_perm .other name (children.map toBriefJson) line
      rw [toBriefJson, toBriefJsonAll_eq_map]
      exact form_object ih hkept hperm

theorem depth_briefFields (kind : Kind) (name : String) (parts : List Json) (line : UInt64) :
    (Json.object (("kind", .string kind.name) :: briefFields kind name parts line)).depth =
      if parts.isEmpty then 1 else Json.depthOfItems parts + 2 := by
  cases parts with
  | nil => rfl
  | cons v vs =>
    simp [briefFields, partsEntry, Json.depth, Json.depthOfEntries, lineJson]

theorem depth_toBriefJson (t : Tree) :
    t.toBriefJson.depth =
      if t.children.isEmpty then 1 else Json.depthOfItems (t.children.map toBriefJson) + 2 := by
  cases t with
  | call name arguments line | other name arguments line =>
    rw [toBriefJson, depth_briefFields, toBriefJsonAll_eq_map, List.isEmpty_map]
    rfl
  | literal value line => cases value <;> rfl

/-- Without empty lists a tree nests as deeply as its levels of nodes do. -/
theorem depth_toBriefJson_le {n : Nat} {t : Tree} :
    t.toBriefJson.depth ≤ 2 * n + 1 ↔ t.onLevel (n + 1) = [] := by
  induction n generalizing t with
  | zero =>
    have hlevel : t.onLevel 1 = t.children := by simp [onLevel]
    rw [hlevel, depth_toBriefJson]
    by_cases hnone : t.children = []
    · simp [hnone]
    · simp [hnone]
  | succ n ih =>
    have hlevel : t.onLevel (n + 1 + 1) = [] ↔
        ∀ c ∈ t.children, c.toBriefJson.depth ≤ 2 * n + 1 := by
      rw [onLevel, List.flatMap_eq_nil_iff]
      exact forall₂_congr fun c _ => ih.symm
    rw [hlevel, depth_toBriefJson]
    by_cases hnone : t.children = []
    · simp [hnone]
    · have hitems : Json.depthOfItems (t.children.map toBriefJson) ≤ 2 * n + 1 ↔
          ∀ v ∈ t.children.map toBriefJson, v.depth ≤ 2 * n + 1 := Json.depthOfItems_le
      rw [List.forall_mem_map] at hitems
      rw [if_neg (by simpa using hnone), ← hitems]
      omega

/-- A tree of at most 64 levels is loaded from its brief form. -/
theorem parse_brief {t : Tree} (h : t.NumberFree) (hlevels : t.onLevel 64 = []) :
    parse t.brief = .ok t :=
  (parse_compact_of_form h (form_toBriefJson t)).1 (depth_toBriefJson_le.mpr hlevels)

/-! ## Loading again -/

/-- A tree that was loaded has no more than 64 levels. It is loaded again from its written form,
just when the nodes on the last of them are literals; any other node there has no parts, and its
empty list is one container too many. -/
theorem loaded_again_iff {source file : String} {t : Tree} (h : ofText source file = .ok t)
    (hfree : t.NumberFree) :
    (∀ node ∈ t.onLevel 63, node.children = []) ∧
      (ofText t.write file = .ok t ↔ ∀ node ∈ t.onLevel 63, node.kind = .literal) ∧
      ((∃ node ∈ t.onLevel 63, node.kind ≠ .literal) → ∃ position,
        ofText t.write file = .error (.malformed file ⟨.text .tooDeep, some position⟩)) := by
  have hlevels : t.onLevel 64 = [] := onLevel_of_parse (ofText_eq_ok.mp h)
  obtain ⟨hloaded, hrefused⟩ := parse_write hfree
  have herror : (∃ node ∈ t.onLevel 63, node.kind ≠ .literal) → ∃ position,
      ofText t.write file = .error (.malformed file ⟨.text .tooDeep, some position⟩) := by
    intro hother
    obtain ⟨position, hposition⟩ := hrefused hother
    exact ⟨position, ofText_eq_error hposition⟩
  refine ⟨onLevel_succ_eq_nil.mp hlevels, ⟨fun hagain node hnode => ?_, fun hall => ?_⟩, herror⟩
  · apply Classical.byContradiction
    intro hkind
    obtain ⟨position, hposition⟩ := herror ⟨node, hnode, hkind⟩
    rw [hagain] at hposition
    cases hposition
  · exact ofText_eq_ok.mpr (hloaded hall)

/-! ## A tree that is not loaded again -/

theorem onLevel_nested (t : Tree) (n m : Nat) : (nested t n).onLevel (n + m) = t.onLevel m := by
  induction n with
  | zero => rw [nested, Nat.zero_add]
  | succ n ih =>
    have hparts : (nested t (n + 1)).children = [nested t n] := rfl
    rw [Nat.succ_add, onLevel, hparts, List.flatMap_singleton, ih]

theorem parse_brief_nested {t : Tree} (h : t.NumberFree) (hchildren : t.children = []) :
    parse (nested t 63).brief = .ok (nested t 63) := by
  refine parse_brief (numberFree_nested h 63) ?_
  have hlevel : (nested t 63).onLevel 64 = t.onLevel 1 := onLevel_nested t 63 1
  rw [hlevel, onLevel, hchildren]
  rfl

/-- A literal on the 64th level is loaded again. -/
theorem loaded_again_nested :
    ofText (nested (literal (.string "Hello") 1) 63).brief "page.ast.json" =
        .ok (nested (literal (.string "Hello") 1) 63) ∧
      ofText (nested (literal (.string "Hello") 1) 63).write "page.ast.json" =
        .ok (nested (literal (.string "Hello") 1) 63) := by
  have hfree := numberFree_string "Hello" 1
  have hload : ofText (nested (literal (.string "Hello") 1) 63).brief "page.ast.json" =
      .ok (nested (literal (.string "Hello") 1) 63) :=
    ofText_eq_ok.mpr (parse_brief_nested hfree rfl)
  refine ⟨hload, (loaded_again_iff hload (numberFree_nested hfree 63)).2.1.mpr ?_⟩
  have hlevel := onLevel_nested (literal (.string "Hello") 1) 63 0
  intro node hnode
  rw [hlevel] at hnode
  rw [List.mem_singleton.mp hnode]
  rfl

/-- A call without arguments on the 64th level is loaded from a text that leaves its list out, but
not again from its written form. -/
theorem not_loaded_again :
    ofText (nested (call "_" [] 1) 63).brief "page.ast.json" = .ok (nested (call "_" [] 1) 63) ∧
      (nested (call "_" [] 1) 63).NumberFree ∧
      ∃ position, ofText (nested (call "_" [] 1) 63).write "page.ast.json" =
        .error (.malformed "page.ast.json" ⟨.text .tooDeep, some position⟩) := by
  have hfree : (call "_" [] 1).NumberFree := numberFree_iff.mpr ⟨nofun, nofun⟩
  have hlevel : (nested (call "_" [] 1) 63).onLevel 63 = [call "_" [] 1] :=
    onLevel_nested (call "_" [] 1) 63 0
  refine ⟨ofText_eq_ok.mpr (parse_brief_nested hfree rfl), numberFree_nested hfree 63, ?_⟩
  obtain ⟨position, hposition⟩ := (parse_write (numberFree_nested hfree 63)).2
    ⟨call "_" [] 1, by rw [hlevel]; exact List.mem_singleton_self _, nofun⟩
  exact ⟨position, ofText_eq_error hposition⟩

end MessageHarvest.Tree
