import MessageHarvest.Proofs.Json.Depth
import MessageHarvest.Proofs.Tree.RoundTrip

/-!
# The levels of a tree

Every node of a tree that is read takes a container of its own, and the list of its parts another,
however it is written. So the bound on the containers of a text bounds the levels of nodes.

* `Tree.onLevel` are the nodes with a given number of nodes above them.
* `Tree.onLevel_of_parse`: a tree that is read has at most 64 levels.
* `Tree.containerDepth_le_iff`: the written form of a tree nests no deeper than its levels allow,
  just when the nodes on the last of them are literals.
-/

namespace MessageHarvest.Tree

/-! ## Levels -/

/-- The nodes of a tree that have `n` nodes above them. -/
def onLevel : (n : Nat) → Tree → List Tree
  | 0, t => [t]
  | n + 1, t => t.children.flatMap (onLevel n)

/-- What is on a level are the parts of what is on the level above. -/
theorem onLevel_succ (n : Nat) (t : Tree) : t.onLevel (n + 1) = (t.onLevel n).flatMap children := by
  induction n generalizing t with
  | zero => simp [onLevel]
  | succ n ih =>
    have hparts : t.onLevel (n + 1 + 1) = t.children.flatMap (onLevel (n + 1)) := rfl
    have habove : t.onLevel (n + 1) = t.children.flatMap (onLevel n) := rfl
    rw [hparts, habove, List.flatMap_assoc]
    exact List.flatMap_congr fun c _ => ih c

theorem onLevel_succ_eq_nil {n : Nat} {t : Tree} :
    t.onLevel (n + 1) = [] ↔ ∀ node ∈ t.onLevel n, node.children = [] := by
  rw [onLevel_succ, List.flatMap_eq_nil_iff]

theorem containerDepthOfAll_le {depth : Nat} {ts : List Tree} :
    containerDepthOfAll ts ≤ depth ↔ ∀ t ∈ ts, t.containerDepth ≤ depth := by
  induction ts with
  | nil => simp [containerDepthOfAll]
  | cons t ts ih => rw [containerDepthOfAll, Nat.max_le, ih, List.forall_mem_cons]

theorem forall_onLevel_succ {n : Nat} {t : Tree} {P : Tree → Prop} :
    (∀ node ∈ t.onLevel (n + 1), P node) ↔ ∀ c ∈ t.children, ∀ node ∈ c.onLevel n, P node := by
  simp only [onLevel, List.mem_flatMap]
  constructor
  · intro h c hc node hnode
    exact h node ⟨c, hc, hnode⟩
  · rintro h node ⟨c, hc, hnode⟩
    exact h c hc node hnode

/-- The list of a node's parts is a container also where the node has none. -/
theorem containerDepth_le_iff {n : Nat} {t : Tree} :
    t.containerDepth ≤ 2 * n + 1 ↔ ∀ node ∈ t.onLevel n, node.kind = .literal := by
  induction n generalizing t with
  | zero =>
    rw [onLevel, List.forall_mem_singleton]
    cases t <;> simp [containerDepth, kind]
  | succ n ih =>
    have hparts : (∀ c ∈ t.children, c.containerDepth ≤ 2 * n + 1) ↔
        ∀ node ∈ t.onLevel (n + 1), node.kind = .literal := by
      rw [forall_onLevel_succ]
      exact forall₂_congr fun c _ => ih
    rw [← hparts, ← containerDepthOfAll_le]
    cases t with
    | call name arguments line | other name arguments line =>
      simp only [containerDepth, children]
      omega
    | literal value line =>
      simp only [containerDepth, children, containerDepthOfAll]
      omega

/-! ## Where the parts of a node come from -/

theorem exists_item_of_mem {items : List Json} {ts : List Tree}
    (h : treesOfItems items = .ok ts) {c : Tree} (hc : c ∈ ts) :
    ∃ item ∈ items, ofJson? item = .ok c := by
  induction items generalizing ts with
  | nil =>
    cases h
    cases hc
  | cons v vs ih =>
    rw [treesOfItems] at h
    obtain ⟨t, ht, hmore⟩ := Json.exists_of_bind_ok h
    obtain ⟨us, hus, hts⟩ := Json.exists_of_bind_ok hmore
    cases hts
    rcases List.mem_cons.mp hc with rfl | hmem
    · exact ⟨v, List.mem_cons_self, ht⟩
    · obtain ⟨item, hitem, hread⟩ := ih hus hmem
      exact ⟨item, List.mem_cons_of_mem v hitem, hread⟩

/-- A part is an item of the list of parts, and so one container deeper. -/
theorem exists_item_of_part {v : Json} {ts : List Tree} (h : partsOfJson? v = .ok ts) {c : Tree}
    (hc : c ∈ ts) : ∃ item, ofJson? item = .ok c ∧ item.depth < v.depth := by
  cases v with
  | array items =>
    obtain ⟨item, hitem, hread⟩ := exists_item_of_mem h hc
    refine ⟨item, hread, ?_⟩
    rw [Json.depth, Nat.lt_succ_iff]
    exact Json.depthOfItems_le.mp (Nat.le_refl _) item hitem
  | _ => cases h

theorem once_eq_some {α : Type} {name : String} {slot result : Option α}
    {value : Except Json.ShapeFault α} (h : once name slot value = .ok result) :
    ∃ a, value = .ok a ∧ result = some a := by
  cases slot with
  | some b => cases h
  | none =>
    cases value with
    | error fault => cases h
    | ok a =>
      cases h
      exact ⟨a, rfl, rfl⟩

/-- The parts among the fields of an object are read from one of its entries. -/
theorem fieldsOfEntries_parts {kind : Kind} {fields result : Fields}
    {entries : List (String × Json)} (h : fieldsOfEntries kind fields entries = .ok result)
    {ts : List Tree} (hts : result.parts = some ts) :
    fields.parts = some ts ∨ ∃ e ∈ entries, partsOfJson? e.2 = .ok ts := by
  induction entries generalizing fields with
  | nil =>
    cases h
    exact .inl hts
  | cons e entries ih =>
    obtain ⟨key, v⟩ := e
    have hlater : ∀ {fields' : Fields}, fieldsOfEntries kind fields' entries = .ok result →
        fields'.parts = fields.parts →
        fields.parts = some ts ∨ ∃ e ∈ (key, v) :: entries, partsOfJson? e.2 = .ok ts := by
      intro fields' hrest hparts
      rcases ih hrest with hbefore | ⟨e, he, hread⟩
      · exact .inl (hparts ▸ hbefore)
      · exact .inr ⟨e, List.mem_cons_of_mem _ he, hread⟩
    rw [fieldsOfEntries] at h
    split at h
    · obtain ⟨line, -, hrest⟩ := Json.exists_of_bind_ok h
      exact hlater hrest rfl
    split at h
    · split at h
      · obtain ⟨value, -, hrest⟩ := Json.exists_of_bind_ok h
        exact hlater hrest rfl
      · exact hlater h rfl
    split at h
    · obtain ⟨name, -, hrest⟩ := Json.exists_of_bind_ok h
      exact hlater hrest rfl
    split at h
    · obtain ⟨parts, hparts, hrest⟩ := Json.exists_of_bind_ok h
      rcases ih hrest with hhere | ⟨e, he, hread⟩
      · obtain ⟨us, hus, rfl⟩ := once_eq_some hparts
        cases hhere
        exact .inr ⟨(key, v), List.mem_cons_self, hus⟩
      · exact .inr ⟨e, List.mem_cons_of_mem _ he, hread⟩
    · exact hlater h rfl

theorem exists_parts_of_ofFields {kind : Kind} {fields : Fields} {t c : Tree}
    (h : ofFields kind fields = .ok t) (hc : c ∈ t.children) :
    ∃ ts, fields.parts = some ts ∧ c ∈ ts := by
  obtain ⟨name, parts, value, line⟩ := fields
  cases kind with
  | literal =>
    obtain ⟨v, -, hmore⟩ := Json.exists_of_bind_ok h
    obtain ⟨l, -, ht⟩ := Json.exists_of_bind_ok hmore
    cases ht
    cases hc
  | call | other =>
    obtain ⟨v, -, hmore⟩ := Json.exists_of_bind_ok h
    obtain ⟨l, -, ht⟩ := Json.exists_of_bind_ok hmore
    cases ht
    cases parts with
    | none => cases hc
    | some ts => exact ⟨ts, rfl, hc⟩

theorem eq_of_refuseMore {α : Type} {length : Nat} {a b : α} {more : List Json}
    (h : refuseMore length a more = .ok b) : b = a := by
  cases more with
  | nil =>
    cases h
    rfl
  | cons v vs => cases h

theorem exists_parts_of_ofItems {kind : Kind} {items : List Json} {t c : Tree}
    (h : ofItems kind items = .ok t) (hc : c ∈ t.children) :
    ∃ v ∈ items, ∃ ts, partsOfJson? v = .ok ts ∧ c ∈ ts := by
  cases items with
  | nil =>
    rw [ofItems] at h
    cases h
  | cons first items =>
    cases kind with
    | literal =>
      rw [ofItems] at h
      obtain ⟨value, -, hmore⟩ := Json.exists_of_bind_ok h
      cases items with
      | nil => cases hmore
      | cons line more =>
        obtain ⟨l, -, ht⟩ := Json.exists_of_bind_ok hmore
        rw [eq_of_refuseMore ht] at hc
        cases hc
    | call | other =>
      rw [ofItems] at h
      · obtain ⟨name, -, hmore⟩ := Json.exists_of_bind_ok h
        cases items with
        | nil => cases hmore
        | cons parts items =>
          obtain ⟨ts, hts, hmore⟩ := Json.exists_of_bind_ok hmore
          cases items with
          | nil => cases hmore
          | cons line more =>
            obtain ⟨l, -, ht⟩ := Json.exists_of_bind_ok hmore
            rw [eq_of_refuseMore ht] at hc
            exact ⟨parts, by simp, ts, hts, hc⟩
      · nofun

/-! ## Trees that are read -/

/-- The values below the top node. -/
def Draft.values : Draft → List Json
  | .entries _ es => es.map Prod.snd
  | .items _ vs => vs

theorem exists_item_of_ofDraft {draft : Draft} {t c : Tree} (h : ofDraft draft = .ok t)
    (hc : c ∈ t.children) :
    ∃ v ∈ draft.values, ∃ item, ofJson? item = .ok c ∧ item.depth < v.depth := by
  cases draft with
  | entries kind entries =>
    obtain ⟨fields, hfields, ht⟩ := Json.exists_of_bind_ok h
    obtain ⟨ts, hts, hmem⟩ := exists_parts_of_ofFields ht hc
    rcases fieldsOfEntries_parts hfields hts with hnone | ⟨e, he, hread⟩
    · cases hnone
    · exact ⟨e.2, List.mem_map_of_mem he, exists_item_of_part hread hmem⟩
  | items kind items =>
    obtain ⟨v, hv, ts, hread, hmem⟩ := exists_parts_of_ofItems h hc
    exact ⟨v, hv, exists_item_of_part hread hmem⟩

/-- A node is an object or a list, the values of its fields one container deeper. -/
theorem exists_draft_of_ofJson? {v : Json} {t : Tree} (h : ofJson? v = .ok t) :
    ∃ draft, ofDraft draft = .ok t ∧ ∀ w ∈ draft.values, w.depth < v.depth := by
  cases v with
  | object entries =>
    rw [ofJson?] at h
    obtain ⟨kind, -, hmore⟩ := Json.exists_of_bind_ok h
    refine ⟨.entries kind entries, hmore, fun w hw => ?_⟩
    obtain ⟨e, he, rfl⟩ := List.mem_map.mp hw
    rw [Json.depth, Nat.lt_succ_iff]
    exact Json.depthOfEntries_le.mp (Nat.le_refl _) e he
  | array items =>
    cases items with
    | nil =>
      rw [ofJson?] at h
      cases h
    | cons first items =>
      rw [ofJson?] at h
      obtain ⟨kind, -, hmore⟩ := Json.exists_of_bind_ok h
      refine ⟨.items kind items, hmore, fun w hw => ?_⟩
      rw [Json.depth, Nat.lt_succ_iff]
      exact Json.depthOfItems_le.mp (Nat.le_refl _) w (List.mem_cons_of_mem first hw)
  | _ =>
    rw [ofJson?] at h
    · cases h
    all_goals simp

/-- Above a node there is a container for each node and each list of parts on the way, and the node
is one itself. -/
theorem lt_depth_of_onLevel {n : Nat} {v : Json} {t : Tree} (h : ofJson? v = .ok t)
    (hn : t.onLevel n ≠ []) : 2 * n < v.depth := by
  induction n generalizing v t with
  | zero =>
    cases v with
    | object entries => exact Nat.succ_pos _
    | array items => exact Nat.succ_pos _
    | _ =>
      rw [ofJson?] at h
      · cases h
      all_goals simp
  | succ n ih =>
    obtain ⟨draft, hdraft, hvalues⟩ := exists_draft_of_ofJson? h
    obtain ⟨node, hnode⟩ := List.exists_mem_of_ne_nil _ hn
    obtain ⟨c, hc, hbelow⟩ := List.mem_flatMap.mp hnode
    obtain ⟨w, hw, item, hitem, hlt⟩ := exists_item_of_ofDraft hdraft hc
    have hdeep := ih hitem (List.ne_nil_of_mem hbelow)
    have := hvalues w hw
    omega

/-! ## Trees of texts -/

/-- Below the top node values have one container around them. -/
theorem topEntries_ensures (bound : Nat) (text : List Char) :
    Json.Ensures (fun draft => ∀ v ∈ draft.values, v.depth ≤ Json.maxDepth - 1)
      (topEntries bound text) := by
  have hstep : ∀ (state : Option Kind × List (String × Json)) (key : String) (text : List Char),
      (∀ e ∈ state.2, e.2.depth ≤ Json.maxDepth - 1) →
      Json.Ensures (fun state => ∀ e ∈ state.2, e.2.depth ≤ Json.maxDepth - 1)
        (topStep bound state key text) := by
    rintro ⟨found, done⟩ key text hdone
    unfold topStep
    dsimp only
    split
    · exact Json.ensures_bind _ fun (kind, rest) _ => Json.ensures_ok hdone rest
    · refine Json.ensures_bind _ fun after _ => ?_
      refine (Json.value_ensures _ bound after).bind fun v rest hv => Json.ensures_ok ?_ rest
      exact List.forall_mem_cons.mpr ⟨hv, hdone⟩
  rw [topEntries_eq]
  refine (Json.Container.foldEntries_ensures hstep bound true text (by simp)).bind ?_
  rintro ⟨found, done⟩ rest hdone
  refine Json.ensures_bind _ fun kind _ => Json.ensures_ok ?_ rest
  intro v hv
  obtain ⟨e, he, rfl⟩ := List.mem_map.mp hv
  exact hdone e (List.mem_reverse.mp he)

theorem topItems_ensures (bound : Nat) (text : List Char) :
    Json.Ensures (fun draft => ∀ v ∈ draft.values, v.depth ≤ Json.maxDepth - 1)
      (topItems bound text) := by
  unfold topItems
  refine Json.ensures_bind _ ?_
  rintro ⟨found, rest⟩ -
  cases found with
  | none => exact Json.ensures_error _
  | some kind =>
    refine (Json.Container.foldItems_ensures (P := fun done : List Json =>
      ∀ v ∈ done, v.depth ≤ Json.maxDepth - 1) ?_ bound false rest (by simp)).bind ?_
    · intro done text hdone
      refine (Json.value_ensures _ bound text).bind fun v rest hv => Json.ensures_ok ?_ rest
      exact List.forall_mem_cons.mpr ⟨hv, hdone⟩
    · intro done rest hdone
      refine Json.ensures_ok (fun v hv => ?_) rest
      exact hdone v (List.mem_reverse.mp hv)

theorem exists_draft_of_reader {bound : Nat} {text rest : List Char} {t : Tree}
    (h : reader bound text = .ok (t, rest)) :
    ∃ draft, ofDraft draft = .ok t ∧ ∀ v ∈ draft.values, v.depth ≤ Json.maxDepth - 1 := by
  obtain ⟨⟨draft, more⟩, hread, hmore⟩ := Json.exists_of_bind_ok h
  refine ⟨draft, ?_, Json.record_ensures (topItems_ensures bound) (topEntries_ensures bound) _ text
    draft more hread⟩
  dsimp only at hmore
  split at hmore
  · rename_i u hdraft
    cases hmore
    exact hdraft
  · cases hmore

/-- A tree that is read has at most 64 levels. -/
theorem onLevel_of_parse {source : String} {t : Tree} (h : parse source = .ok t) :
    t.onLevel 64 = [] := by
  obtain ⟨rest, hread, -⟩ := Json.exists_of_read h
  obtain ⟨draft, hdraft, hvalues⟩ := exists_draft_of_reader hread
  apply Classical.byContradiction
  intro hdeep
  obtain ⟨node, hnode⟩ := List.exists_mem_of_ne_nil _ hdeep
  obtain ⟨c, hc, hbelow⟩ := List.mem_flatMap.mp hnode
  obtain ⟨v, hv, item, hitem, hlt⟩ := exists_item_of_ofDraft hdraft hc
  have hitemDepth : 2 * 63 < item.depth :=
    lt_depth_of_onLevel hitem (List.ne_nil_of_mem hbelow)
  have hvDepth : v.depth ≤ 127 - 1 := hvalues v hv
  omega

end MessageHarvest.Tree
