import Mathlib.Data.List.DropRight
import MessageHarvest.Proofs.Json.Lexeme

/-!
# Spellings of values

A value can be written in many ways: with white space between its parts, and with any number or
string that is read as the one meant. `Spells` says which texts begin with a value, and what is left
of them behind it. It says nothing of how deep a value is: that is the reader's to bound.

* `value_of_spells`: a reader of `depth` nested containers reads every spelling of a value that is
  no deeper, and refuses every spelling of a deeper one for its depth alone.
* `Container.foldItems_of_spells`, `Container.foldEntries_of_spells`: the same for any fold over the
  parts of a container, with what one step does as the only assumption.
* `read_of_yields`: what a whole text is read as.
-/

namespace MessageHarvest.Json

/-- The next part of a container begins at `part`: after the comma, unless it is the first. -/
def Separates : (first : Bool) → (text part : List Char) → Prop
  | true, text, part => skipSpace text = part
  | false, text, part => ∃ more, skipSpace text = ',' :: more ∧ skipSpace more = part

/-- What a text may spell: a value, what is left of the items or the entries of a container, or an
entry. -/
inductive Phrase where
  | value (v : Json)
  | items (first : Bool) (vs : List Json)
  | entry (key : String) (v : Json)
  | entries (first : Bool) (es : List (String × Json))

/-- The text begins with a spelling of the phrase, behind which `rest` is left. -/
inductive Spells : Phrase → (text rest : List Char) → Prop where
  | scalar {v : Json} {text rest : List Char} (h : scalar? text = some (.ok (v, rest))) :
      Spells (.value v) text rest
  | array {vs : List Json} {text rest : List Char} (h : Spells (.items true vs) text rest) :
      Spells (.value (.array vs)) ('[' :: text) rest
  | object {es : List (String × Json)} {text rest : List Char}
      (h : Spells (.entries true es) text rest) :
      Spells (.value (.object es)) ('\x7b' :: text) rest
  | endItems {first : Bool} {text rest : List Char} (h : skipSpace text = ']' :: rest) :
      Spells (.items first []) text rest
  | items {first : Bool} {v : Json} {vs : List Json} {text item more rest : List Char}
      (hitem : Separates first text item) (hv : Spells (.value v) item more)
      (hvs : Spells (.items false vs) more rest) :
      Spells (.items first (v :: vs)) text rest
  | entry {key : String} {v : Json} {name more text rest : List Char}
      (hkey : Lexeme.string name = .ok (key, more)) (hcolon : skipSpace more = ':' :: text)
      (hv : Spells (.value v) (skipSpace text) rest) :
      Spells (.entry key v) ('"' :: name) rest
  | endEntries {first : Bool} {text rest : List Char} (h : skipSpace text = '\x7d' :: rest) :
      Spells (.entries first []) text rest
  | entries {first : Bool} {key : String} {v : Json} {es : List (String × Json)}
      {text item more rest : List Char}
      (hitem : Separates first text item) (hv : Spells (.entry key v) item more)
      (hes : Spells (.entries false es) more rest) :
      Spells (.entries first ((key, v) :: es)) text rest

/-! ## White space and lengths -/

theorem skipSpace_length (text : List Char) : (skipSpace text).length ≤ text.length :=
  (List.dropWhile_suffix isSpace).length_le

theorem length_lt_of_skipSpace {c : Char} {text more : List Char} (h : skipSpace text = c :: more) :
    more.length < text.length := by
  have := skipSpace_length text
  rwa [h] at this

theorem skipSpace_cons {c : Char} (h : isSpace c = false) (more : List Char) :
    skipSpace (c :: more) = c :: more := by
  simp [skipSpace, h]

theorem Separates.length {first : Bool} {text part : List Char} (h : Separates first text part) :
    part.length ≤ text.length := by
  cases first with
  | true =>
    rw [← show skipSpace text = part from h]
    exact skipSpace_length text
  | false =>
    obtain ⟨more, hcomma, hpart⟩ := h
    have hmore := length_lt_of_skipSpace hcomma
    have := skipSpace_length more
    rw [hpart] at this
    omega

namespace Spells

/-- A phrase takes at least a character. -/
theorem length_lt {phrase : Phrase} {text rest : List Char} (h : Spells phrase text rest) :
    rest.length < text.length := by
  induction h with
  | scalar h => exact scalar?_length h
  | array _ ih => exact Nat.lt_succ_of_lt ih
  | object _ ih => exact Nat.lt_succ_of_lt ih
  | endItems h | endEntries h => exact length_lt_of_skipSpace h
  | items hitem _ _ ihv ihvs =>
    have := hitem.length
    omega
  | @entry key v name more text rest hkey hcolon _ ih =>
    have := Lexeme.string_length hkey
    have := length_lt_of_skipSpace hcolon
    have := skipSpace_length text
    rw [List.length_cons]
    omega
  | entries hitem _ _ ihv ihes =>
    have := hitem.length
    omega

/-- A value begins neither with white space nor with the end of a list. -/
theorem exists_of_value {v : Json} {text rest : List Char} (h : Spells (.value v) text rest) :
    ∃ c more, text = c :: more ∧ isSpace c = false ∧ c ≠ ']' := by
  cases h with
  | scalar h => exact exists_of_scalar? h
  | array h => exact ⟨_, _, rfl, by decide, by decide⟩
  | object h => exact ⟨_, _, rfl, by decide, by decide⟩

theorem skipSpace_value {v : Json} {text rest : List Char} (h : Spells (.value v) text rest) :
    skipSpace text = text := by
  obtain ⟨c, more, rfl, hspace, -⟩ := h.exists_of_value
  exact skipSpace_cons hspace more

theorem exists_of_array {vs : List Json} {text rest : List Char}
    (h : Spells (.value (.array vs)) text rest) :
    ∃ inside, text = '[' :: inside ∧ Spells (.items true vs) inside rest := by
  cases h with
  | scalar h => cases scalar?_depth h
  | array h => exact ⟨_, rfl, h⟩

theorem exists_of_object {es : List (String × Json)} {text rest : List Char}
    (h : Spells (.value (.object es)) text rest) :
    ∃ inside, text = '\x7b' :: inside ∧ Spells (.entries true es) inside rest := by
  cases h with
  | scalar h => cases scalar?_depth h
  | object h => exact ⟨_, rfl, h⟩

end Spells

/-! ## Readers of limited depth -/

/-- The reader gives `a` if the depth fits, and else refuses the text for its depth. -/
structure Yields {α : Type} (fits : Prop) (a : α) (result : Except Stop α) : Prop where
  reads : fits → result = .ok a
  refuses : ¬ fits → ∃ place, result = .error ⟨.text .tooDeep, some place⟩

namespace Yields

variable {α β : Type} {p q : Prop} {a : α} {b : β} {result : Except Stop α}

theorem of_eq (h : result = .ok a) : Yields True a result :=
  ⟨fun _ => h, fun hnot => absurd trivial hnot⟩

theorem congr (h : Yields p a result) (hpq : p ↔ q) : Yields q a result :=
  ⟨fun hq => h.reads (hpq.mpr hq), fun hq => h.refuses fun hp => hq (hpq.mp hp)⟩

theorem bind {next : α → Except Stop β} (h : Yields p a result) (hnext : Yields q b (next a)) :
    Yields (p ∧ q) b (result >>= next) := by
  by_cases hp : p
  · rw [h.reads hp]
    exact hnext.congr (by simp [hp])
  · obtain ⟨place, hplace⟩ := h.refuses hp
    rw [hplace]
    exact ⟨fun hpq => absurd hpq.1 hp, fun _ => ⟨place, rfl⟩⟩

theorem bind_ok {next : α → Except Stop β} (h : Yields p a result) (hnext : next a = .ok b) :
    Yields p b (result >>= next) :=
  (h.bind (of_eq hnext)).congr (and_iff_left trivial)

theorem map (f : α → β) (h : Yields p a result) : Yields p (f a) (f <$> result) := by
  constructor
  · intro hp
    rw [h.reads hp]
    rfl
  · intro hp
    obtain ⟨place, hplace⟩ := h.refuses hp
    rw [hplace]
    exact ⟨place, rfl⟩

end Yields

/-! ## Folds over containers -/

namespace Container

theorem nextItem?_of_separates {first : Bool} {text item : List Char} {c : Char}
    (h : Separates first text (c :: item)) (hend : c ≠ ']') :
    nextItem? first text = .ok (some (c :: item)) := by
  cases first with
  | true =>
    have hskip : skipSpace text = c :: item := h
    simp [nextItem?, hskip]
  | false =>
    obtain ⟨more, hcomma, hitem⟩ := h
    unfold nextItem?
    rw [hcomma]
    split
    · contradiction
    · rename_i heq
      cases heq
    · rename_i heq
      cases heq
      rw [if_neg Bool.false_ne_true, if_pos rfl, hitem]
      split
      · contradiction
      · rename_i heq
        cases heq
        exact absurd rfl hend
      · rfl

theorem nextKey?_of_separates {first : Bool} {text name : List Char}
    (h : Separates first text ('"' :: name)) : nextKey? first text = .ok (some name) := by
  cases first with
  | true =>
    have hskip : skipSpace text = '"' :: name := h
    simp [nextKey?, hskip]
  | false =>
    obtain ⟨more, hcomma, hkey⟩ := h
    simp [nextKey?, hcomma, hkey]

theorem colon_of_skipSpace {text rest : List Char} (h : skipSpace text = ':' :: rest) :
    colon text = .ok rest := by
  simp [colon, h]

section

variable {σ : Type} {fits : Json → Prop} {bound : Nat}

theorem foldItems_some {step : σ → Reader σ} {first : Bool} {text item : List Char}
    (h : nextItem? first text = .ok (some item)) (count : Nat) (state : σ) :
    foldItems step (count + 1) first state text =
      step state item >>= fun read => foldItems step count false read.1 read.2 := by
  rw [foldItems, h]
  dsimp only
  cases step state item <;> rfl

theorem foldItems_none {step : σ → Reader σ} {text rest : List Char}
    (h : skipSpace text = ']' :: rest) (count : Nat) (first : Bool) (state : σ) :
    foldItems step (count + 1) first state text = .ok (state, rest) := by
  simp [foldItems, nextItem?, giveUp, h]

/-- A fold over the items of a list reads them all, or stops at the first that is too deep. There
are enough steps, since each item takes a character of the text. -/
theorem foldItems_of_spells {step : σ → Reader σ} (add : σ → Json → σ) {vs : List Json}
    (hstep : ∀ {v text rest} state, v ∈ vs → Spells (.value v) text rest → text.length ≤ bound →
      Yields (fits v) (add state v, rest) (step state text))
    {first : Bool} {text rest : List Char} (h : Spells (.items first vs) text rest) (count : Nat)
    (hcount : text.length ≤ count) (hbound : text.length ≤ bound) (state : σ) :
    Yields (∀ v ∈ vs, fits v) (vs.foldl add state, rest)
      (foldItems step count first state text) := by
  induction vs generalizing first text count state with
  | nil =>
    have hlength := h.length_lt
    obtain ⟨count, rfl⟩ : ∃ n, count = n + 1 := ⟨count - 1, by omega⟩
    cases h with
    | endItems h => exact (Yields.of_eq (foldItems_none h count first state)).congr (by simp)
  | cons v vs ih =>
    have hlength := h.length_lt
    obtain ⟨count, rfl⟩ : ∃ n, count = n + 1 := ⟨count - 1, by omega⟩
    cases h with
    | @items _ _ _ _ item more _ hitem hv hvs =>
      have hitemLength := hitem.length
      have hmoreLength := hv.length_lt
      obtain ⟨c, chars, rfl, -, hc⟩ := hv.exists_of_value
      rw [foldItems_some (nextItem?_of_separates hitem hc)]
      have hfirst := hstep state List.mem_cons_self hv (by omega)
      have hlater := ih (fun state hw => hstep state (List.mem_cons_of_mem v hw)) hvs count
        (by omega) (by omega) (add state v)
      exact (hfirst.bind hlater).congr List.forall_mem_cons.symm

theorem foldEntries_some {step : σ → String → Reader σ} {first : Bool} {text name more : List Char}
    {key : String} (h : nextKey? first text = .ok (some name))
    (hkey : Lexeme.string name = .ok (key, more)) (count : Nat) (state : σ) :
    foldEntries step (count + 1) first state text =
      step state key more >>= fun read => foldEntries step count false read.1 read.2 := by
  rw [foldEntries, h]
  dsimp only
  rw [hkey]
  dsimp only
  cases step state key more <;> rfl

theorem foldEntries_none {step : σ → String → Reader σ} {text rest : List Char}
    (h : skipSpace text = '\x7d' :: rest) (count : Nat) (first : Bool) (state : σ) :
    foldEntries step (count + 1) first state text = .ok (state, rest) := by
  simp [foldEntries, nextKey?, giveUp, h]

/-- A fold over the entries of an object reads them all, or stops at the first that is too deep.
What the state must satisfy for the entries that are left is kept by each step. -/
theorem foldEntries_of_spells {step : σ → String → Reader σ} (add : σ → String × Json → σ)
    {fits : String × Json → Prop} (ready : σ → List (String × Json) → Prop)
    (hready : ∀ {state e es}, ready state (e :: es) → ready (add state e) es)
    (hstep : ∀ {key v es more text rest state}, ready state ((key, v) :: es) →
      skipSpace more = ':' :: text → Spells (.value v) (skipSpace text) rest →
      text.length ≤ bound → Yields (fits (key, v)) (add state (key, v), rest) (step state key more))
    {es : List (String × Json)} {first : Bool} {text rest : List Char}
    (h : Spells (.entries first es) text rest) (count : Nat) (hcount : text.length ≤ count)
    (hbound : text.length ≤ bound) {state : σ} (hstate : ready state es) :
    Yields (∀ e ∈ es, fits e) (es.foldl add state, rest)
      (foldEntries step count first state text) := by
  induction es generalizing first text count state with
  | nil =>
    have hlength := h.length_lt
    obtain ⟨count, rfl⟩ : ∃ n, count = n + 1 := ⟨count - 1, by omega⟩
    cases h with
    | endEntries h => exact (Yields.of_eq (foldEntries_none h count first state)).congr (by simp)
  | cons e es ih =>
    have hlength := h.length_lt
    obtain ⟨count, rfl⟩ : ∃ n, count = n + 1 := ⟨count - 1, by omega⟩
    cases h with
    | @entries _ key v _ _ item more _ hitem hentry hes =>
      have hitemLength := hitem.length
      have hmoreLength := hentry.length_lt
      cases hentry with
      | @entry _ _ name after value _ hkey hcolon hv =>
        have hname := Lexeme.string_length hkey
        have hafter := length_lt_of_skipSpace hcolon
        rw [List.length_cons] at hitemLength hmoreLength
        rw [foldEntries_some (nextKey?_of_separates hitem) hkey]
        have hfirst := hstep hstate hcolon hv (by omega)
        have hlater := ih hes count (by omega) (by omega) (hready hstate)
        exact (hfirst.bind hlater).congr List.forall_mem_cons.symm

end

end Container

/-! ## Reading spelled values -/

theorem depthOfItems_le {depth : Nat} {vs : List Json} :
    depthOfItems vs ≤ depth ↔ ∀ v ∈ vs, v.depth ≤ depth := by
  induction vs with
  | nil => simp [depthOfItems]
  | cons v vs ih => rw [depthOfItems, Nat.max_le, ih, List.forall_mem_cons]

theorem depthOfEntries_le {depth : Nat} {es : List (String × Json)} :
    depthOfEntries es ≤ depth ↔ ∀ e ∈ es, e.2.depth ≤ depth := by
  induction es with
  | nil => simp [depthOfEntries]
  | cons e es ih =>
    obtain ⟨key, v⟩ := e
    rw [depthOfEntries, Nat.max_le, ih, List.forall_mem_cons]

/-- White space before a value is passed over. -/
theorem value_skipSpace (depth bound : Nat) (text : List Char) :
    value depth bound (skipSpace text) = value depth bound text := by
  have hskip : skipSpace (skipSpace text) = skipSpace text := List.dropWhile_idempotent isSpace text
  cases depth <;> simp only [value, valueWith, hskip]

theorem valueWith_scalar {text rest : List Char} {v : Json}
    (h : scalar? text = some (.ok (v, rest))) (inner : Option (Reader Json)) (bound : Nat) :
    valueWith inner bound text = .ok (v, rest) := by
  obtain ⟨c, more, rfl, hspace, -⟩ := exists_of_scalar? h
  simp only [valueWith, skipSpace_cons hspace, h]

/-- Reads an item of a list, which goes before those that were read. -/
def itemStep (inner : Reader Json) (done : List Json) : Reader (List Json) := fun text => do
  let (v, text) ← inner text
  return (v :: done, text)

/-- Reads the colon and the value of an entry. -/
def entryStep (inner : Reader Json) (done : List (String × Json)) (key : String) :
    Reader (List (String × Json)) := fun text => do
  let text ← Container.colon text
  let (v, text) ← inner text
  return ((key, v) :: done, text)

theorem value_array (depth bound : Nat) (text : List Char) :
    value (depth + 1) bound ('[' :: text) =
      (fun (done, rest) => (Json.array done.reverse, rest)) <$>
        Container.foldItems (itemStep (value depth bound)) bound true [] text :=
  rfl

theorem value_object (depth bound : Nat) (text : List Char) :
    value (depth + 1) bound ('\x7b' :: text) =
      (fun (done, rest) => (Json.object done.reverse, rest)) <$>
        Container.foldEntries (entryStep (value depth bound)) bound true [] text :=
  rfl

/-- What is spelled is read if it is no deeper than the reader goes, and else refused. -/
theorem value_of_spells {v : Json} {text rest : List Char} (h : Spells (.value v) text rest)
    {bound : Nat} (hbound : text.length ≤ bound) (depth : Nat) :
    Yields (v.depth ≤ depth) (v, rest) (value depth bound text) := by
  induction depth generalizing v text rest with
  | zero =>
    -- A container is refused here at its bracket, whatever its parts.
    cases h with
    | scalar h =>
      have hdepth := scalar?_depth h
      exact (Yields.of_eq (valueWith_scalar h none bound)).congr (by simp [hdepth])
    | array h => exact ⟨nofun, fun _ => ⟨_, rfl⟩⟩
    | object h => exact ⟨nofun, fun _ => ⟨_, rfl⟩⟩
  | succ depth ih =>
    cases h with
    | scalar h =>
      have hdepth := scalar?_depth h
      exact (Yields.of_eq (valueWith_scalar h _ bound)).congr (by simp [hdepth])
    | @array vs text _ h =>
      have htext : text.length ≤ bound := Nat.le_of_succ_le hbound
      have hitems : Yields (∀ v ∈ vs, v.depth ≤ depth) (vs.foldl (fun done v => v :: done) [], rest)
          (Container.foldItems (itemStep (value depth bound)) bound true [] text) :=
        Container.foldItems_of_spells (fun done v => v :: done)
          (fun _ _ hv hlength => (ih hv hlength).bind_ok rfl) h bound htext htext []
      have hread : (vs.foldl (fun done v => v :: done) []).reverse = vs := by simp
      have harray := hitems.map fun (done, rest) => (Json.array done.reverse, rest)
      simp only [hread] at harray
      rw [value_array]
      exact harray.congr (by rw [Json.depth, Nat.add_le_add_iff_right, depthOfItems_le])
    | @object es text _ h =>
      have htext : text.length ≤ bound := Nat.le_of_succ_le hbound
      have hentries : Yields (∀ e ∈ es, e.2.depth ≤ depth)
          (es.foldl (fun done e => e :: done) [], rest)
          (Container.foldEntries (entryStep (value depth bound)) bound true [] text) := by
        refine Container.foldEntries_of_spells (fun done e => e :: done) (fun _ _ => True)
          (fun h => h) ?_ h bound htext htext trivial
        intro key v es more text rest state _ hcolon hv hlength
        have hvalue := ih hv (Nat.le_trans (skipSpace_length text) hlength)
        rw [value_skipSpace] at hvalue
        rw [entryStep, Container.colon_of_skipSpace hcolon]
        exact hvalue.bind_ok rfl
      have hread : (es.foldl (fun done e => e :: done) []).reverse = es := by simp
      have hobject := hentries.map fun (done, rest) => (Json.object done.reverse, rest)
      simp only [hread] at hobject
      rw [value_object]
      exact hobject.congr (by rw [Json.depth, Nat.add_le_add_iff_right, depthOfEntries_le])

/-- A whole text is read, if only white space is left, or refused for its depth at a position. -/
theorem read_of_yields {α : Type} {fits : Prop} {reader : Nat → Reader α} {source : String} {a : α}
    {rest : List Char}
    (h : Yields fits (a, rest) (reader (source.toList.length + 1) source.toList))
    (hrest : skipSpace rest = []) :
    (fits → read reader source = .ok a) ∧
      (¬ fits → ∃ position, read reader source = .error ⟨.text .tooDeep, some position⟩) := by
  constructor
  · intro hfits
    simp only [read, h.reads hfits, ok_bind, hrest]
    rfl
  · intro hfits
    obtain ⟨place, hplace⟩ := h.refuses hfits
    refine ⟨place.position source.toList, ?_⟩
    simp only [read, hplace]
    rfl

end MessageHarvest.Json
