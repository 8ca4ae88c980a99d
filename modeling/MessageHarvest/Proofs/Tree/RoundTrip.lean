import MessageHarvest.Proofs.Tree.Forms

/-!
# Written trees are loaded again

A tree without number literals is loaded from its written form as it was, unless it nests too
deeply. What counts is the number of containers in the written form: a call has two of them, its
object and the list of its arguments, also if it has no arguments; a literal has one.

* `Tree.containerDepth` is this number at the deepest place.
* `Tree.ofText_write_iff`: a tree is loaded again exactly if the number is at most 127, and refused
  otherwise.
-/

namespace MessageHarvest.Tree

/-! ## How deep the written form is -/

mutual

/-- The number of containers around the deepest place of the written form of a tree. -/
def containerDepth : Tree → Nat
  | call _ arguments _ => containerDepthOfAll arguments + 2
  | literal .. => 1
  | other _ children _ => containerDepthOfAll children + 2

def containerDepthOfAll : List Tree → Nat
  | [] => 0
  | t :: ts => max t.containerDepth (containerDepthOfAll ts)

end

theorem depthOfItems_toJson {ts : List Tree}
    (h : ∀ t ∈ ts, t.toJson.depth = t.containerDepth) :
    Json.depthOfItems (ts.map toJson) = containerDepthOfAll ts := by
  induction ts with
  | nil => rfl
  | cons t ts ih =>
    rw [List.map_cons, Json.depthOfItems, containerDepthOfAll, h t List.mem_cons_self,
      ih fun u hu => h u (List.mem_cons_of_mem t hu)]

theorem depth_toJson (t : Tree) : t.toJson.depth = t.containerDepth := by
  induction t using ofChildren with
  | h t ih =>
    cases t with
    | call name arguments line | other name arguments line =>
      have hparts := depthOfItems_toJson ih
      simp only [children] at hparts
      simp only [toJson, toJsonAll_eq_map, Json.depth, Json.depthOfEntries, hparts, lineJson,
        containerDepth]
      omega
    | literal value line => cases value <;> rfl

/-! ## Loading what is written -/

/-- A tree without numbers is loaded from its written form, exactly if this is not too deep. -/
theorem ofText_write_iff {t : Tree} (h : t.NumberFree) (file : String) :
    (ofText t.write file = .ok t ↔ t.containerDepth ≤ 127) ∧
      (127 < t.containerDepth → ∃ position,
        ofText t.write file = .error (.malformed file ⟨.text .tooDeep, some position⟩)) := by
  obtain ⟨hloaded, hrefused⟩ := parse_compact_of_form h (form_toJson t)
  rw [depth_toJson] at hloaded hrefused
  have htooDeep : 127 < t.containerDepth → ∃ position,
      ofText t.write file = .error (.malformed file ⟨.text .tooDeep, some position⟩) := by
    intro hlt
    obtain ⟨position, hposition⟩ := hrefused hlt
    refine ⟨position, ?_⟩
    rw [ofText, write, hposition]
    rfl
  refine ⟨⟨fun hok => ?_, fun hle => ?_⟩, htooDeep⟩
  · refine Nat.le_of_not_lt fun hlt => ?_
    obtain ⟨position, herror⟩ := htooDeep hlt
    rw [hok] at herror
    cases herror
  · rw [ofText, write, hloaded hle]
    rfl

/-- The tree inside `n` nodes that are neither calls nor literals. -/
def nested (t : Tree) : Nat → Tree
  | 0 => t
  | n + 1 => other "block" [nested t n] 1

theorem numberFree_nested {t : Tree} (h : t.NumberFree) (n : Nat) : (nested t n).NumberFree := by
  induction n with
  | zero => exact h
  | succ n ih =>
    refine numberFree_iff.mpr ⟨nofun, fun c hc => ?_⟩
    rw [List.mem_singleton.mp hc]
    exact ih

theorem containerDepth_nested (t : Tree) (n : Nat) :
    (nested t n).containerDepth = t.containerDepth + 2 * n := by
  induction n with
  | zero => rfl
  | succ n ih =>
    rw [nested, containerDepth, containerDepthOfAll, containerDepthOfAll, ih]
    omega

theorem numberFree_string (text : String) (line : UInt64) :
    (literal (.string text) line).NumberFree :=
  numberFree_iff.mpr ⟨nofun, nofun⟩

theorem numberFree_call (name : String) (line : UInt64) : (call name [] line).NumberFree :=
  numberFree_iff.mpr ⟨nofun, nofun⟩

/-- At the same depth of nodes a literal is loaded and a call without arguments is not. -/
theorem ofText_write_nested :
    ofText (nested (literal (.string "Hello") 1) 63).write "page.ast.json" =
        .ok (nested (literal (.string "Hello") 1) 63) ∧
      ∃ position, ofText (nested (call "_" [] 1) 63).write "page.ast.json" =
        .error (.malformed "page.ast.json" ⟨.text .tooDeep, some position⟩) := by
  have hliteral : (nested (literal (.string "Hello") 1) 63).containerDepth = 127 :=
    containerDepth_nested _ 63
  have hcall : (nested (call "_" [] 1) 63).containerDepth = 128 :=
    containerDepth_nested _ 63
  constructor
  · exact (ofText_write_iff (numberFree_nested (numberFree_string "Hello" 1) 63) _).1.mpr
      (Nat.le_of_eq hliteral)
  · exact (ofText_write_iff (numberFree_nested (numberFree_call "_" 1) 63) _).2
      (Nat.le_of_eq hcall.symm)

end MessageHarvest.Tree
