import MessageHarvest.Tree.Format
import MessageHarvest.Proofs.Json.Layout
import MessageHarvest.Proofs.Json.Shape

/-!
# Loading trees from spelled objects

The top node of a text is read in another way than the nodes below it: its kind is taken from the
text, and its other fields are read as values first. `reader_of_spells` says that this makes no
difference. Where an object is spelled that stands for a tree, and names its kind, the reader gives
this tree, or refuses the text because the object nests too deeply. `parse_of_lays` says the same of
the layouts of the object.
-/

namespace MessageHarvest.Tree

open Json (Spells Yields skipSpace)

/-! ## The kind -/

/-- Every kind that an object gives is given by name. -/
def NamesKind (entries : List (String × Json)) : Prop :=
  ∀ v, ("kind", v) ∈ entries → ∃ name, v = .string name

theorem Kind.mem_of_ofName? {name : String} {kind : Kind} (h : Kind.ofName? name = some kind) :
    name ∈ Kind.all.map Kind.name := by
  have hname : kind.name = name := by
    simpa using List.find?_some h
  rw [← hname]
  exact List.mem_map_of_mem (List.mem_of_find?_eq_some h)

theorem Kind.ofName?_of_ofJson? {name : String} {kind : Kind}
    (h : Kind.ofJson? (.string name) = .ok kind) : Kind.ofName? name = some kind := by
  rw [Kind.ofJson?] at h
  split at h
  · rename_i hname
    cases h
    exact hname
  · cases h

/-- Only the first entry that gives a kind is let pass. -/
theorem Kind.exists_of_ofEntries? {found : Option Kind} {v : Json} {entries : List (String × Json)}
    {kind : Kind} (h : Kind.ofEntries? found (("kind", v) :: entries) = .ok kind) :
    found = none ∧ ∃ first, Kind.ofJson? v = .ok first ∧
      Kind.ofEntries? (some first) entries = .ok kind := by
  cases found with
  | some _ => cases h
  | none =>
    cases hfirst : Kind.ofJson? v with
    | error fault =>
      simp only [Kind.ofEntries?, if_true, hfirst] at h
      cases h
    | ok first =>
      simp only [Kind.ofEntries?, if_true, hfirst, Json.ok_bind] at h
      exact ⟨rfl, first, rfl, h⟩

theorem Kind.ofEntries?_of_ne {key : String} (hkey : key ≠ "kind") (found : Option Kind) (v : Json)
    (entries : List (String × Json)) :
    Kind.ofEntries? found ((key, v) :: entries) = Kind.ofEntries? found entries := by
  simp only [Kind.ofEntries?, hkey, if_false]

theorem kindReader_of_spells {name : String} {kind : Kind} {text rest : List Char}
    (h : Spells (.value (.string name)) (skipSpace text) rest)
    (hkind : Kind.ofName? name = some kind) : kindReader text = .ok (kind, rest) := by
  have hvariant := Json.reads_variant text.length (Kind.mem_of_ofName? hkind) _ _ h (Nat.le_refl _)
  simp only [kindReader, hvariant, Json.ok_bind, hkind]
  rfl

/-! ## The entries of the top node -/

/-- The kind and the values that have been read before an entry, and with it. -/
def note (state : Option Kind × List (String × Json)) (e : String × Json) :
    Option Kind × List (String × Json) :=
  if e.1 = "kind" then ((Kind.ofJson? e.2).toOption, state.2) else (state.1, e :: state.2)

theorem note_kind {v : Json} {kind : Kind} (h : Kind.ofJson? v = .ok kind)
    (found : Option Kind) (done : List (String × Json)) :
    note (found, done) ("kind", v) = (some kind, done) := by
  simp only [note, if_true, h]
  rfl

theorem note_of_ne {key : String} (hkey : key ≠ "kind") (found : Option Kind)
    (done : List (String × Json)) (v : Json) :
    note (found, done) (key, v) = (found, (key, v) :: done) := by
  simp only [note, hkey, if_false]

theorem foldl_note {kind : Kind} {entries : List (String × Json)} {found : Option Kind}
    (h : Kind.ofEntries? found entries = .ok kind) (done : List (String × Json)) :
    entries.foldl note (found, done) =
      (some kind, (entries.filter (·.1 ≠ "kind")).reverse ++ done) := by
  induction entries generalizing found done with
  | nil =>
    cases found with
    | none => cases h
    | some _ =>
      cases h
      rfl
  | cons e entries ih =>
    obtain ⟨key, v⟩ := e
    rw [List.foldl_cons]
    by_cases hkey : key = "kind"
    · subst hkey
      obtain ⟨-, first, hfirst, hlater⟩ := Kind.exists_of_ofEntries? h
      rw [note_kind hfirst, ih hlater, List.filter_cons_of_neg (by simp)]
    · rw [Kind.ofEntries?_of_ne hkey] at h
      rw [note_of_ne hkey, ih h, List.filter_cons_of_pos (by simpa using hkey)]
      simp

/-- Reads an entry of the top node behind its key. -/
def topStep (bound : Nat) (state : Option Kind × List (String × Json)) (key : String) :
    Json.Reader (Option Kind × List (String × Json)) := fun text => do
  let (kind, done) := state
  if key = "kind" then
    let (kind, rest) ← Json.field key kind kindReader text
    return ((kind, done), rest)
  else
    let (v, rest) ← Json.value (Json.maxDepth - 1) bound (← Json.Container.colon text)
    return ((kind, (key, v) :: done), rest)

theorem topEntries_eq (bound : Nat) (text : List Char) :
    topEntries bound text = (do
      let ((kind, done), rest) ←
        Json.Container.foldEntries (topStep bound) bound true (none, []) text
      let kind ← Json.required "kind" kind rest
      return (.entries kind done.reverse, rest)) :=
  rfl

/-- An entry of the top node is not too deep: a kind never is, and another value has one container
around it. -/
def Fits (e : String × Json) : Prop :=
  e.1 = "kind" ∨ e.2.depth ≤ Json.maxDepth - 1

theorem topStep_of_spells {bound : Nat} {kind : Kind} {state : Option Kind × List (String × Json)}
    {entries : List (String × Json)} {key : String} {v : Json} {more text rest : List Char}
    (hkind : Kind.ofEntries? state.1 ((key, v) :: entries) = .ok kind)
    (hnames : NamesKind ((key, v) :: entries)) (hcolon : skipSpace more = ':' :: text)
    (hv : Spells (.value v) (skipSpace text) rest) (hbound : text.length ≤ bound) :
    Yields (Fits (key, v)) (note state (key, v), rest) (topStep bound state key more) := by
  obtain ⟨found, done⟩ := state
  have hafter := Json.Container.colon_of_skipSpace hcolon
  by_cases hkey : key = "kind"
  · subst hkey
    obtain ⟨name, rfl⟩ := hnames v List.mem_cons_self
    obtain ⟨rfl, first, hfirst, -⟩ := Kind.exists_of_ofEntries? hkind
    have hread := kindReader_of_spells hv (Kind.ofName?_of_ofJson? hfirst)
    have hstep : topStep bound (none, done) "kind" more = .ok ((some first, done), rest) := by
      simp only [topStep, if_true, Json.field, hafter, Json.ok_bind, hread]
      rfl
    rw [note_kind hfirst]
    exact (Yields.of_eq hstep).congr (by simp [Fits])
  · have hvalue := Json.value_of_spells hv (Nat.le_trans (Json.skipSpace_length text) hbound)
      (Json.maxDepth - 1)
    have hfits : v.depth ≤ Json.maxDepth - 1 ↔ Fits (key, v) := by simp [Fits, hkey]
    rw [Json.value_skipSpace] at hvalue
    rw [note_of_ne hkey]
    simp only [topStep, hkey, if_false, hafter, Json.ok_bind]
    refine (hvalue.bind_ok ?_).congr hfits
    rfl

theorem NamesKind.of_cons {e : String × Json} {entries : List (String × Json)}
    (h : NamesKind (e :: entries)) : NamesKind entries :=
  fun v hv => h v (List.mem_cons_of_mem e hv)

/-- What is kept of the top node: its kind, and its other entries as values. -/
theorem topEntries_of_spells {entries : List (String × Json)} {text rest : List Char} {kind : Kind}
    (h : Spells (.entries true entries) text rest)
    (hkind : Kind.ofEntries? none entries = .ok kind) (hnames : NamesKind entries) {bound : Nat}
    (hbound : text.length ≤ bound) :
    Yields (∀ e ∈ entries, Fits e) (.entries kind (entries.filter (·.1 ≠ "kind")), rest)
      (topEntries bound text) := by
  -- The kind that the whole object gives is the one that what was read and what is left give.
  have hready : ∀ {state : Option Kind × List (String × Json)} {e entries},
      Kind.ofEntries? state.1 (e :: entries) = .ok kind ∧ NamesKind (e :: entries) →
      Kind.ofEntries? (note state e).1 entries = .ok kind ∧ NamesKind entries := by
    rintro ⟨found, done⟩ ⟨key, v⟩ entries ⟨hkind, hnames⟩
    refine ⟨?_, hnames.of_cons⟩
    by_cases hkey : key = "kind"
    · subst hkey
      obtain ⟨-, first, hfirst, hlater⟩ := Kind.exists_of_ofEntries? hkind
      rw [note_kind hfirst]
      exact hlater
    · rw [note_of_ne hkey]
      rw [Kind.ofEntries?_of_ne hkey] at hkind
      exact hkind
  have hfold : Yields (∀ e ∈ entries, Fits e) (entries.foldl note (none, []), rest)
      (Json.Container.foldEntries (topStep bound) bound true (none, []) text) :=
    Json.Container.foldEntries_of_spells note
      (fun state entries => Kind.ofEntries? state.1 entries = .ok kind ∧ NamesKind entries)
      hready (fun hstate => topStep_of_spells hstate.1 hstate.2) h bound hbound hbound
      ⟨hkind, hnames⟩
  rw [foldl_note hkind, List.append_nil] at hfold
  rw [topEntries_eq]
  refine hfold.bind_ok ?_
  simp only [Json.required, Json.ok_bind, List.reverse_reverse]
  rfl

/-! ## The fields of the top node -/

/-- The kind among the entries is no field. -/
theorem fieldsOfEntries_filter (kind : Kind) (fields : Fields) (entries : List (String × Json)) :
    fieldsOfEntries kind fields (entries.filter (·.1 ≠ "kind")) =
      fieldsOfEntries kind fields entries := by
  induction entries generalizing fields with
  | nil => rfl
  | cons e entries ih =>
    obtain ⟨key, v⟩ := e
    by_cases hkey : key = "kind"
    · subst hkey
      have hskip : fieldsOfEntries kind fields (("kind", v) :: entries) =
          fieldsOfEntries kind fields entries := by
        cases kind <;> rfl
      rw [List.filter_cons_of_neg (by simp), ih, hskip]
    · rw [List.filter_cons_of_pos (by simpa using hkey)]
      simp only [fieldsOfEntries, ih]

theorem ofDraft_filter {kind : Kind} {entries : List (String × Json)}
    (hkind : Kind.ofEntries? none entries = .ok kind) :
    ofDraft (.entries kind (entries.filter (·.1 ≠ "kind"))) = ofJson? (.object entries) := by
  rw [ofDraft, ofJson?, fieldsOfEntries_filter, hkind]
  rfl

theorem exists_kind_of_ofJson? {entries : List (String × Json)} {t : Tree}
    (h : ofJson? (.object entries) = .ok t) :
    ∃ kind, Kind.ofEntries? none entries = .ok kind := by
  rw [ofJson?] at h
  cases hkind : Kind.ofEntries? none entries with
  | error fault =>
    rw [hkind] at h
    cases h
  | ok kind => exact ⟨kind, rfl⟩

/-! ## Whole nodes -/

theorem forall_fits_iff {entries : List (String × Json)} (hnames : NamesKind entries) :
    (∀ e ∈ entries, Fits e) ↔ (Json.object entries).depth ≤ Json.maxDepth := by
  have hdepth : (Json.object entries).depth ≤ Json.maxDepth ↔
      ∀ e ∈ entries, e.2.depth ≤ Json.maxDepth - 1 :=
    Nat.succ_le_succ_iff.trans Json.depthOfEntries_le
  rw [hdepth]
  constructor
  · rintro hfits ⟨key, v⟩ he
    rcases hfits _ he with hkey | hv
    · obtain rfl : key = "kind" := hkey
      obtain ⟨name, rfl⟩ := hnames v he
      exact Nat.zero_le _
    · exact hv
  · intro hv e he
    exact .inr (hv e he)

/-- An object that names its kind is read as the tree that it stands for, if it is not too deep. -/
theorem reader_of_spells {entries : List (String × Json)} {t : Tree} {text rest : List Char}
    (h : Spells (.value (.object entries)) (skipSpace text) rest) (hnames : NamesKind entries)
    (ht : ofJson? (.object entries) = .ok t) {bound : Nat} (hbound : text.length ≤ bound) :
    Yields ((Json.object entries).depth ≤ Json.maxDepth) (t, rest) (reader bound text) := by
  obtain ⟨kind, hkind⟩ := exists_kind_of_ofJson? ht
  obtain ⟨inside, hentries, hlength, hrecord⟩ :=
    Json.record_of_object h "internally tagged enum SyntaxNode" (topItems bound) (topEntries bound)
  have htop := (topEntries_of_spells hentries hkind hnames (Nat.le_trans hlength hbound)).congr
    (forall_fits_iff hnames)
  rw [← hrecord] at htop
  refine htop.bind_ok ?_
  dsimp only
  rw [ofDraft_filter hkind, ht]
  rfl

/-- The same for a whole text, which may have white space around the object. -/
theorem parse_of_spells {entries : List (String × Json)} {t : Tree} {source : String}
    {rest : List Char}
    (h : Spells (.value (.object entries)) (skipSpace source.toList) rest)
    (hrest : skipSpace rest = []) (hnames : NamesKind entries)
    (ht : ofJson? (.object entries) = .ok t) :
    ((Json.object entries).depth ≤ Json.maxDepth → parse source = .ok t) ∧
      (¬ (Json.object entries).depth ≤ Json.maxDepth →
        ∃ position, parse source = .error ⟨.text .tooDeep, some position⟩) := by
  exact Json.read_of_yields (reader_of_spells h hnames ht (Nat.le_succ _)) hrest

/-- Every layout of an object that stands for a tree is loaded, if the object is not too deep. -/
theorem parse_of_lays {entries : List (String × Json)} {t : Tree} {source : String}
    (h : Json.Lays (Json.object entries).tokens source.toList)
    (hplain : (Json.object entries).Plain) (hnames : NamesKind entries)
    (ht : ofJson? (.object entries) = .ok t) :
    ((Json.object entries).depth ≤ 127 → parse source = .ok t) ∧
      (127 < (Json.object entries).depth →
        ∃ position, parse source = .error ⟨.text .tooDeep, some position⟩) := by
  obtain ⟨rest, hspells, hrest⟩ := hplain.exists_spells_of_lays h
  obtain ⟨hloaded, hrefused⟩ := parse_of_spells hspells hrest hnames ht
  exact ⟨hloaded, fun hlt => hrefused (Nat.not_le_of_lt hlt)⟩

end MessageHarvest.Tree
