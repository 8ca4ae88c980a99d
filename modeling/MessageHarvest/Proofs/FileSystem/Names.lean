import MessageHarvest.FileSystem
import MessageHarvest.Proofs.Path.Route

/-!
# The names on the way

In a well-formed file system every entry has a name that spells one step of a path. What is met on a
walk is therefore the path that the walk began with, led on by names.

* `FileSystem.walkSteps_cons_ok`: what a single step of a path can do.
* `FileSystem.entryFor_mem`: a path leads to an entry of the tree or to none.
* `FileSystem.WellFormed.mem_walk`: what a walk meets.
* `FileSystem.WellFormed.not_endsIdle_of_isFile`: a path that ends in a separator or a dot leads to
  no file.
-/

namespace MessageHarvest

/-! ## Names -/

namespace RawText

/-- Whether all of it is text. -/
def IsText (raw : RawText) : Prop :=
  ∀ g ∈ raw, g.char?.isSome = true

instance (raw : RawText) : Decidable raw.IsText :=
  inferInstanceAs (Decidable (∀ g ∈ raw, g.char?.isSome = true))

theorem isText_ofString (text : String) : (ofString text).IsText := by
  intro g hg
  obtain ⟨c, -, rfl⟩ := List.mem_map.mp hg
  rfl

theorem IsText.append {a b : RawText} (ha : a.IsText) (hb : b.IsText) : IsText (a ++ b) := by
  intro g hg
  exact (List.mem_append.mp hg).elim (ha g) (hb g)

theorem IsText.ofString_lossy {raw : RawText} (h : raw.IsText) : ofString raw.lossy = raw := by
  have hshown : ∀ g ∈ raw, Glyph.char g.shown = g := by
    intro g hg
    cases g with
    | char c => rfl
    | stray bytes => exact absurd (h _ hg) (by simp [Glyph.char?])
  have hmap : raw.map (fun g => Glyph.char g.shown) = raw.map id := List.map_congr_left hshown
  simpa [ofString, lossy, Function.comp_def] using hmap

theorem text?_eq_some_iff {raw : RawText} {text : String} :
    raw.text? = some text ↔ raw = ofString text := by
  refine ⟨fun h => ?_, fun h => h ▸ text?_ofString text⟩
  obtain ⟨cs, hcs, rfl⟩ : ∃ cs, raw.mapM Glyph.char? = some cs ∧ String.ofList cs = text := by
    simpa [text?] using h
  rw [ofString, String.toList_ofList]
  clear h
  induction raw generalizing cs with
  | nil =>
    cases hcs
    rfl
  | cons g raw ih =>
    cases g with
    | stray bytes => simp [List.mapM_cons, Glyph.char?] at hcs
    | char c =>
      obtain ⟨rest, hrest, rfl⟩ : ∃ rest, raw.mapM Glyph.char? = some rest ∧ c :: rest = cs := by
        simpa [List.mapM_cons, Glyph.char?, Option.bind_eq_some_iff] using hcs
      rw [List.map_cons, ← ih rest hrest]

end RawText

namespace Path

/-- A name that a directory can have an entry for: text that spells one step. -/
structure IsName (name : RawText) : Prop where
  isText : name.IsText
  isStep : isIdle name = false
  ne_up : name ≠ up
  no_separator : separator ∉ name

instance (name : RawText) : Decidable (IsName name) :=
  decidable_of_iff (name.IsText ∧ isIdle name = false ∧ name ≠ up ∧ separator ∉ name)
    ⟨fun ⟨h1, h2, h3, h4⟩ => ⟨h1, h2, h3, h4⟩, fun ⟨h1, h2, h3, h4⟩ => ⟨h1, h2, h3, h4⟩⟩

namespace IsName

variable {name : RawText}

theorem ne_nil (h : IsName name) : name ≠ [] := by
  rintro rfl
  exact absurd h.isStep (by simp [isIdle])

theorem isAbsolute (h : IsName name) : isAbsolute name = false :=
  isAbsolute_of_not_mem h.no_separator

theorem pieces (h : IsName name) : Path.pieces name = [name] :=
  pieces_of_not_mem h.ne_nil h.no_separator

theorem route (h : IsName name) : Path.route name = [.name name] := by
  simp [route_eq, h.isAbsolute, steps, h.pieces, component?, h.isStep, h.ne_up]

end IsName

theorem isText_join {p q : Path} (hp : p.IsText) (hq : q.IsText) : (p.join q).IsText := by
  have hsep : RawText.IsText [separator] := by decide
  unfold join
  split
  · exact hq
  · split
    · exact hp.append hq
    · exact hp.append (hsep.append hq)

/-- The path that leads on by the names. -/
def extend (path : Path) (names : List RawText) : Path :=
  names.foldl join path

/-- What joining a name keeps is kept on the whole way. -/
theorem extend_keeps {P : Path → Prop}
    (hjoin : ∀ path name, P path → IsName name → P (path.join name))
    {path : Path} (h : P path) {names : List RawText} (hnames : ∀ name ∈ names, IsName name) :
    P (path.extend names) := by
  induction names generalizing path with
  | nil => exact h
  | cons name names ih =>
    have hname := hnames name List.mem_cons_self
    exact ih (hjoin path name h hname) fun n hn => hnames n (List.mem_cons_of_mem _ hn)

theorem route_extend (path : Path) {names : List RawText} (h : ∀ name ∈ names, IsName name) :
    (path.extend names).route = path.route ++ names.map Component.name := by
  induction names generalizing path with
  | nil => simp [extend]
  | cons name names ih =>
    have hname := h name List.mem_cons_self
    have hrest := ih (path.join name) fun n hn => h n (List.mem_cons_of_mem _ hn)
    rw [route_join path hname.isAbsolute, hname.route] at hrest
    simpa [extend] using hrest

theorem pieces_extend (path : Path) {names : List RawText} (h : ∀ name ∈ names, IsName name) :
    (path.extend names).pieces = path.pieces ++ names := by
  induction names generalizing path with
  | nil => simp [extend]
  | cons name names ih =>
    have hname := h name List.mem_cons_self
    have hrest := ih (path.join name) fun n hn => h n (List.mem_cons_of_mem _ hn)
    rw [pieces_join path hname.isAbsolute, hname.pieces] at hrest
    simpa [extend] using hrest

theorem isText_extend {path : Path} (h : path.IsText) {names : List RawText}
    (hnames : ∀ name ∈ names, IsName name) : (path.extend names).IsText :=
  extend_keeps (fun _ _ hpath hname => isText_join hpath hname.isText) h hnames

/-- Names do not change what a path begins with. -/
theorem start_extend {path : Path} (hne : path ≠ []) {names : List RawText}
    (hnames : ∀ name ∈ names, IsName name) :
    (path.extend names).isAbsolute = path.isAbsolute ∧
      (path.extend names).isDotted = path.isDotted := by
  apply start_eq_of_head?
  rw [pieces_extend path hnames]
  obtain ⟨first, rest, hpieces⟩ := List.exists_cons_of_ne_nil (pieces_ne_nil hne)
  rw [hpieces, List.cons_append, List.head?_cons, List.head?_cons]

theorem Tidy.extend {path : Path} (h : Tidy path) (hne : path ≠ []) {names : List RawText}
    (hnames : ∀ name ∈ names, IsName name) : Tidy (path.extend names) := by
  rw [Tidy, pieces_extend path hnames, List.tail_append_of_ne_nil (pieces_ne_nil hne)]
  intro piece hpiece
  rcases List.mem_append.mp hpiece with hpiece | hpiece
  · exact h piece hpiece
  · exact (hnames piece hpiece).isStep

end Path

/-! ## Well-formed file systems -/

/-- Whether every entry at and below this one has a name that a directory can have an entry for. -/
inductive Entry.Named : Entry → Prop
  | file (content : RawText) : Named (.file content)
  | link (target : Path) : Named (.link target)
  | directory {entries : List (RawText × Entry)}
      (names : ∀ held ∈ entries, Path.IsName held.1)
      (entries_named : ∀ held ∈ entries, Named held.2) : Named (.directory entries)

namespace Entry

/-- What a directory hands down to its entries is handed down along names. -/
theorem of_at? {P : Entry → Prop}
    (hbelow : ∀ entries, P (.directory entries) → ∀ held ∈ entries, P held.2)
    {entry found : Entry} {names : List RawText} (h : P entry)
    (hfound : entry.at? names = some found) : P found := by
  induction names generalizing entry with
  | nil =>
    cases hfound
    exact h
  | cons name names ih =>
    cases hlookup : entry.entries.lookup name with
    | none => simp [at?, hlookup] at hfound
    | some inner =>
      obtain ⟨before, after, heq, -⟩ := List.lookup_eq_some_iff.mp hlookup
      have hmem : (name, inner) ∈ entry.entries := by simp [heq]
      cases entry with
      | file | link => simp [entries] at hmem
      | directory entries =>
        exact ih (hbelow entries h _ hmem) (by simpa [at?, hlookup] using hfound)

theorem named_of_at? {entry found : Entry} {names : List RawText} (h : entry.Named)
    (hfound : entry.at? names = some found) : found.Named := by
  refine of_at? (fun entries h => ?_) h hfound
  cases h with
  | directory _ entries_named => exact entries_named

/-- Only directories lie on the way to an entry. -/
theorem directory_of_at?_concat {entry found : Entry} {names : List RawText} {name : RawText}
    (h : entry.at? (names ++ [name]) = some found) :
    ∃ entries, entry.at? names = some (.directory entries) := by
  induction names generalizing entry with
  | nil =>
    cases entry with
    | directory entries => exact ⟨entries, rfl⟩
    | file | link => simp [at?, entries] at h
  | cons first names ih =>
    cases hlookup : entry.entries.lookup first with
    | none => simp [at?, hlookup] at h
    | some inner =>
      simp only [List.cons_append, at?, hlookup] at h ⊢
      exact ih h

theorem mem_pathsOfAll {path : Path} {entries : List (RawText × Entry)}
    {outcome : Except FileError Path} :
    outcome ∈ pathsOfAll path entries ↔
      ∃ held ∈ entries, outcome ∈ held.2.paths (path.join held.1) := by
  induction entries with
  | nil => simp [pathsOfAll]
  | cons held entries ih =>
    obtain ⟨name, entry⟩ := held
    simp [pathsOfAll, ih]

/-- What lies below a path is reached from it by names. -/
theorem Named.mem_paths {entry : Entry} (h : entry.Named) {path found : Path}
    (hfound : .ok found ∈ entry.paths path) :
    ∃ names, (∀ name ∈ names, Path.IsName name) ∧ found = path.extend names := by
  induction h generalizing path with
  | file | link =>
    have heq : found = path := by simpa [paths] using hfound
    exact ⟨[], by simp, heq⟩
  | directory names _ ih =>
    rw [paths, List.mem_cons] at hfound
    rcases hfound with hself | hbelow
    · exact ⟨[], by simp, Except.ok.inj hself⟩
    · split at hbelow
      · simp at hbelow
      · obtain ⟨held, hheld, hmem⟩ := mem_pathsOfAll.mp hbelow
        obtain ⟨more, hmore, rfl⟩ := ih held hheld hmem
        refine ⟨held.1 :: more, ?_, rfl⟩
        simpa using ⟨names held hheld, hmore⟩

end Entry

namespace FileSystem

def DirectoryAt (fs : FileSystem) (place : Place) : Prop :=
  ∃ entries, fs.entryAt? place = some (.directory entries)

/-- Every entry has a name that spells one step, and the directory to work in is one. -/
structure WellFormed (fs : FileSystem) : Prop where
  named : fs.root.Named
  working : fs.DirectoryAt fs.working

variable {fs : FileSystem}

/-! ## One step of a path -/

theorem DirectoryAt.tail {place : Place} (h : fs.DirectoryAt place) :
    fs.DirectoryAt place.tail := by
  cases place with
  | nil => exact h
  | cons name place =>
    obtain ⟨entries, hentries⟩ := h
    exact Entry.directory_of_at?_concat (by simpa [entryAt?] using hentries)

theorem DirectoryAt.start {place : Place} (h : fs.DirectoryAt place) (path : Path) :
    fs.DirectoryAt (start path place) := by
  have hroot : fs.DirectoryAt [] := by
    induction place with
    | nil => exact h
    | cons name place ih => exact ih h.tail
  unfold FileSystem.start
  split
  · exact hroot
  · exact h

/-- Where a path goes on from a place after a step: from there, from the directory that holds it, or
from one that it holds. -/
inductive GoesOn (fs : FileSystem) (place : Place) (step : RawText) : Place → Prop
  | idle (idle : Path.isIdle step = true) : GoesOn fs place step place
  | up (idle : Path.isIdle step = false) (up : step = Path.up) : GoesOn fs place step place.tail
  | down {entries : List (RawText × Entry)} (idle : Path.isIdle step = false)
      (ne_up : step ≠ Path.up) (short : ¬ nameLimit < step.byteCount)
      (held : fs.entryAt? (step :: place) = some (.directory entries)) :
      GoesOn fs place step (step :: place)

section

variable {purpose : Purpose} {follow : Place → List RawText → Except FileError Target}
  {place next found : Place} {step : RawText} {rest : List RawText} {entry : Entry}

theorem GoesOn.directoryAt (h : fs.GoesOn place step next) (hplace : fs.DirectoryAt place) :
    fs.DirectoryAt next := by
  cases h with
  | idle => exact hplace
  | up => exact hplace.tail
  | down _ _ _ held => exact ⟨_, held⟩

/-- Such a step leads the same way whatever comes after it. -/
theorem GoesOn.walkSteps_eq (h : fs.GoesOn place step next) (hpurpose : purpose ≠ .writing)
    (follow : Place → List RawText → Except FileError Target) (rest : List RawText) :
    fs.walkSteps purpose follow place (step :: rest) = fs.walkSteps purpose follow next rest := by
  conv => lhs; unfold walkSteps
  cases h with
  | idle idle => rw [if_pos idle]
  | up idle up => rw [if_neg (by simp [idle]), if_pos up]
  | down idle ne_up short held =>
    rw [if_neg (by simp [idle]), if_neg ne_up, if_neg (fun h => hpurpose h.1), if_neg short, held]

/-- What a step can do where the path ends well: it goes on, or it is the last one and names what is
in the directory or what is missing there, or it names a link. -/
theorem walkSteps_cons_ok {ends : Target}
    (h : fs.walkSteps purpose follow place (step :: rest) = .ok ends) :
    (∃ next, fs.GoesOn place step next ∧ fs.walkSteps purpose follow next rest = .ok ends) ∨
    Path.isIdle step = false ∧
      ((rest = [] ∧
          ((∃ entry, fs.entryAt? (step :: place) = some entry ∧
              ends = .present (step :: place) entry) ∨
            fs.entryAt? (step :: place) = none ∧ ends = .absent place step)) ∨
        ∃ target, fs.entryAt? (step :: place) = some (.link target) ∧
          follow (start target place) (Path.segments target ++ rest) = .ok ends) := by
  unfold walkSteps at h
  split at h
  · rename_i idle
    exact .inl ⟨place, .idle idle, h⟩
  rename_i idle
  rw [Bool.not_eq_true] at idle
  split at h
  · rename_i up
    exact .inl ⟨place.tail, .up idle up, h⟩
  rename_i ne_up
  split at h
  · cases h
  rename_i hwriting
  clear hwriting
  split at h
  · cases h
  rename_i short
  split at h
  · rename_i hnone
    cases h
    exact .inr ⟨idle, .inl ⟨rfl, .inr ⟨hnone, rfl⟩⟩⟩
  · cases h
  · rename_i held
    exact .inl ⟨step :: place, .down idle ne_up short held, h⟩
  · rename_i hentry
    cases h
    exact .inr ⟨idle, .inl ⟨rfl, .inl ⟨_, hentry, rfl⟩⟩⟩
  · cases h
  · rename_i hentry
    split at h
    · rename_i hitself
      cases h
      exact .inr ⟨idle, .inl ⟨hitself.2, .inl ⟨_, hentry, rfl⟩⟩⟩
    · exact .inr ⟨idle, .inr ⟨_, hentry, h⟩⟩

/-- A step on the way to an entry goes on, or it is the last one and names the entry, or it names a
link. -/
theorem walkSteps_cons_cases
    (h : fs.walkSteps purpose follow place (step :: rest) = .ok (.present found entry)) :
    (∃ next, fs.GoesOn place step next ∧
      fs.walkSteps purpose follow next rest = .ok (.present found entry)) ∨
    Path.isIdle step = false ∧
      ((rest = [] ∧ found = step :: place ∧ fs.entryAt? found = some entry) ∨
        ∃ target, fs.entryAt? (step :: place) = some (.link target) ∧
          follow (start target place) (Path.segments target ++ rest) =
            .ok (.present found entry)) := by
  refine (walkSteps_cons_ok h).imp_right (And.imp_right (Or.imp_left ?_))
  rintro ⟨hlast, ⟨_, hentry, ⟨⟩⟩ | ⟨-, ⟨⟩⟩⟩
  exact ⟨hlast, rfl, hentry⟩

end

/-! ## Entries that paths lead to -/

theorem walkSteps_present {purpose : Purpose}
    {follow : Place → List RawText → Except FileError Target}
    (hfollow : ∀ place steps found entry, follow place steps = .ok (.present found entry) →
      fs.entryAt? found = some entry)
    {place found : Place} {steps : List RawText} {entry : Entry}
    (h : fs.walkSteps purpose follow place steps = .ok (.present found entry)) :
    fs.entryAt? found = some entry := by
  induction steps generalizing place with
  | nil =>
    unfold walkSteps at h
    split at h
    · rename_i hentry
      cases h
      exact hentry
    · cases h
  | cons step rest ih =>
    rcases walkSteps_cons_cases h with ⟨next, -, hmore⟩ | ⟨-, ⟨-, -, hentry⟩ | ⟨target, -, hlink⟩⟩
    · exact ih hmore
    · exact hentry
    · exact hfollow _ _ _ _ hlink

theorem followSteps_present {purpose : Purpose} {links : Nat} {place found : Place}
    {steps : List RawText} {entry : Entry}
    (h : fs.followSteps purpose links place steps = .ok (.present found entry)) :
    fs.entryAt? found = some entry := by
  induction links generalizing place steps found entry with
  | zero => exact walkSteps_present (fun _ _ _ _ h => by cases h) h
  | succ links ih => exact walkSteps_present (fun _ _ _ _ h => ih h) h

/-- Steps are taken one by one, however many links may be followed. -/
theorem exists_followSteps_eq (fs : FileSystem) (purpose : Purpose) :
    ∃ follow, fs.followSteps purpose linkLimit = fs.walkSteps purpose follow :=
  ⟨_, rfl⟩

/-- A path that is refused is refused in every file system. All others are followed. -/
theorem resolve_refused_or (path : Path) :
    (∃ e, ∀ (fs : FileSystem) purpose, fs.resolve purpose path = .error e) ∨
      ∀ (fs : FileSystem) purpose, fs.resolve purpose path =
        fs.followSteps purpose linkLimit (start path fs.working) path.segments := by
  by_cases hnul : path.contains (.char '\x00') = true
  · exact .inl ⟨.nulInName, fun fs purpose => by rw [resolve, if_pos hnul]⟩
  by_cases hnil : path = []
  · exact .inl ⟨.notFound, fun fs purpose => by rw [resolve, if_neg hnul, if_pos hnil]⟩
  by_cases hlong : path.isTooLong = true
  · exact .inl ⟨.nameTooLong, fun fs purpose => by
      rw [resolve, if_neg hnul, if_neg hnil, if_pos hlong]⟩
  · exact .inr fun fs purpose => by rw [resolve, if_neg hnul, if_neg hnil, if_neg hlong]

theorem entryFor_followSteps {purpose : Purpose} {path : Path} {entry : Entry}
    (h : fs.entryFor purpose path = .ok entry) :
    ∃ place, fs.followSteps purpose linkLimit (start path fs.working) path.segments =
      .ok (.present place entry) := by
  unfold entryFor at h
  split at h
  · rename_i place found hresolve
    cases h
    rcases resolve_refused_or path with ⟨e, hrefused⟩ | hfollowed
    · cases (hrefused fs purpose).symm.trans hresolve
    · exact ⟨place, (hfollowed fs purpose).symm.trans hresolve⟩
  · cases h
  · cases h

/-- A path leads to an entry of the tree or to none. -/
theorem entryFor_mem {purpose : Purpose} {path : Path} {entry : Entry}
    (h : fs.entryFor purpose path = .ok entry) : ∃ place, fs.entryAt? place = some entry := by
  obtain ⟨place, hplace⟩ := entryFor_followSteps h
  exact ⟨place, followSteps_present hplace⟩

theorem WellFormed.entryFor_named (hfs : fs.WellFormed) {purpose : Purpose} {path : Path}
    {entry : Entry} (h : fs.entryFor purpose path = .ok entry) : entry.Named := by
  obtain ⟨place, hplace⟩ := entryFor_mem h
  exact Entry.named_of_at? hfs.named hplace

/-- The names under which a directory holds its entries. -/
theorem WellFormed.isName_of_mem_entries (hfs : fs.WellFormed) {path : Path}
    {held : RawText × Entry} (h : held ∈ fs.entries path) : Path.IsName held.1 := by
  unfold entries at h
  split at h
  · rename_i entry hentry
    cases hfs.entryFor_named hentry with
    | file | link => simp [Entry.entries] at h
    | directory names _ => exact names held h
  · simp at h

/-- What a walk meets is the path that it began with, led on by names. -/
theorem WellFormed.mem_walk (hfs : fs.WellFormed) {path found : Path}
    (h : .ok found ∈ fs.walk path) :
    ∃ names, (∀ name ∈ names, Path.IsName name) ∧ found = path.extend names := by
  unfold walk at h
  split at h
  · simp at h
  · simp at h
  · rename_i hentry
    exact (hfs.entryFor_named hentry).mem_paths h
  · rename_i hentry _ _
    exact (hfs.entryFor_named hentry).mem_paths h

theorem ne_nil_of_mem_walk {path found : Path} (h : .ok found ∈ fs.walk path) : path ≠ [] := by
  rintro rfl
  have hentry : fs.entryItself [] = .error .notFound := by
    simp [entryItself, entryFor, resolve]
  simp [walk, hentry] at h

/-! ## Separators at the end -/

/-- The last segment of these is no step. -/
def EndsIdle (steps : List RawText) : Prop :=
  ∃ last, steps.getLast? = some last ∧ Path.isIdle last = true

theorem EndsIdle.append {steps : List RawText} (h : EndsIdle steps) (before : List RawText) :
    EndsIdle (before ++ steps) := by
  obtain ⟨last, hlast, hidle⟩ := h
  exact ⟨last, by rw [List.getLast?_append, hlast, Option.some_or], hidle⟩

theorem EndsIdle.of_cons {step : RawText} {rest : List RawText} (h : EndsIdle (step :: rest)) :
    rest = [] ∧ Path.isIdle step = true ∨ rest ≠ [] ∧ EndsIdle rest := by
  obtain ⟨last, hlast, hidle⟩ := h
  cases rest with
  | nil =>
    obtain rfl : step = last := by simpa using hlast
    exact .inl ⟨rfl, hidle⟩
  | cons next rest => exact .inr ⟨nofun, last, by rwa [List.getLast?_cons_cons] at hlast, hidle⟩

/-- A path that ends in a separator or a dot has no last step that could lead to a file: at the end,
and wherever a link has been replaced, there is a directory. -/
theorem walkSteps_ne_file {follow : Place → List RawText → Except FileError Target}
    (hfollow : ∀ place steps found content, fs.DirectoryAt place → EndsIdle steps →
      follow place steps ≠ .ok (.present found (.file content)))
    {place found : Place} {steps : List RawText} {content : RawText}
    (hplace : fs.DirectoryAt place) (hsteps : steps = [] ∨ EndsIdle steps) :
    fs.walkSteps .target follow place steps ≠ .ok (.present found (.file content)) := by
  induction steps generalizing place with
  | nil =>
    obtain ⟨entries, hentries⟩ := hplace
    simp [walkSteps, hentries]
  | cons step rest ih =>
    intro h
    have hrest := (hsteps.resolve_left nofun).of_cons
    rcases walkSteps_cons_cases h with ⟨next, hstep, hmore⟩ | ⟨hidle, hlast⟩
    · exact ih (hstep.directoryAt hplace) (hrest.imp And.left And.right) hmore
    · have hmore : rest ≠ [] ∧ EndsIdle rest := hrest.resolve_left fun hend => by
        rw [hidle] at hend
        cases hend.2
      rcases hlast with ⟨hnil, -⟩ | ⟨target, -, hlink⟩
      · exact hmore.1 hnil
      · exact hfollow _ _ found content (hplace.start _) (hmore.2.append _) hlink

theorem followSteps_ne_file {links : Nat} {place found : Place} {steps : List RawText}
    {content : RawText} (hplace : fs.DirectoryAt place) (hsteps : EndsIdle steps) :
    fs.followSteps .target links place steps ≠ .ok (.present found (.file content)) := by
  induction links generalizing place found steps content with
  | zero => exact walkSteps_ne_file (fun _ _ _ _ _ _ h => by cases h) hplace (.inr hsteps)
  | succ links ih => exact walkSteps_ne_file (fun _ _ _ _ => ih) hplace (.inr hsteps)

theorem entry_of_isFile {path : Path} (h : fs.isFile path = true) :
    ∃ content, fs.entry path = .ok (.file content) := by
  unfold isFile at h
  split at h
  · rename_i entry hentry
    cases entry with
    | file content => exact ⟨content, hentry⟩
    | directory | link => cases h
  · cases h

/-- A path that ends in a separator or a dot leads to no file. -/
theorem WellFormed.not_endsIdle_of_isFile (hfs : fs.WellFormed) {path : Path}
    (h : fs.isFile path = true) : ¬ EndsIdle path.segments := by
  intro hidle
  obtain ⟨content, hcontent⟩ := entry_of_isFile h
  obtain ⟨place, hplace⟩ := entryFor_followSteps hcontent
  exact followSteps_ne_file (hfs.working.start _) hidle hplace

theorem WellFormed.getLast?_of_isFile (hfs : fs.WellFormed) {path : Path}
    (h : fs.isFile path = true) : path.getLast? ≠ some Path.separator := by
  intro hlast
  obtain ⟨front, rfl⟩ := List.getLast?_eq_some_iff.mp hlast
  refine hfs.not_endsIdle_of_isFile h ⟨[], ?_, rfl⟩
  simp [Path.segments_append front [], Path.segments]

end FileSystem

end MessageHarvest
