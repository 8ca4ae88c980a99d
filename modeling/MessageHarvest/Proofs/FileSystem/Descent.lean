import MessageHarvest.Proofs.FileSystem.Names

/-!
# Going down without links

Without links a path leads the way that it spells, and what it leads to does not depend on what it
is followed for. A walk then meets every file below its path.

* `FileSystem.LinkFree.walk_eq`: a walk lists the entry at the end of its path.
* `FileSystem.LinkFree.walkSteps_above`: the names at the end of a path lead down from the entry to
  which the segments before them lead.
* `FileSystem.LinkFree.mem_walk_of_isFile`: a file is met on the way down from any path before it.
-/

namespace MessageHarvest

/-! ## Entries without links -/

/-- Whether there is no link at or below an entry. -/
inductive Entry.LinkFree : Entry → Prop
  | file (content : RawText) : LinkFree (.file content)
  | directory {entries : List (RawText × Entry)}
      (entries_linkFree : ∀ held ∈ entries, LinkFree held.2) : LinkFree (.directory entries)

theorem RawText.byteCount_append (a b : RawText) :
    RawText.byteCount (a ++ b) = a.byteCount + b.byteCount := by
  induction a with
  | nil => simp [byteCount]
  | cons g a ih =>
    have hcons : ∀ raw : RawText, RawText.byteCount (g :: raw) = g.size + raw.byteCount :=
      fun _ => rfl
    rw [List.cons_append, hcons, hcons, ih, Nat.add_assoc]

namespace Path

theorem prefix_join (path : Path) {name : RawText} (hname : IsName name) :
    path <+: path.join name := by
  rw [join, if_neg (by simp [hname.isAbsolute])]
  split
  · exact List.prefix_append path name
  · exact List.prefix_append path (separator :: name)

theorem prefix_extend (path : Path) {names : List RawText} (hnames : ∀ name ∈ names, IsName name) :
    path <+: path.extend names :=
  extend_keeps (fun longer _ h hname => h.trans (prefix_join longer hname)) (List.prefix_refl path)
    hnames

/-- What is written in front of a path is not too long if the path is not. -/
theorem isTooLong_of_prefix {path longer : Path} (h : path <+: longer)
    (hsize : longer.isTooLong = false) : path.isTooLong = false := by
  obtain ⟨rest, rfl⟩ := h
  simp only [isTooLong, decide_eq_false_iff_not, RawText.byteCount_append] at hsize ⊢
  omega

end Path

namespace Entry

theorem at?_append (entry : Entry) (before after : List RawText) :
    entry.at? (before ++ after) = (entry.at? before).bind (·.at? after) := by
  induction before generalizing entry with
  | nil => rfl
  | cons name before ih =>
    simp only [List.cons_append, at?]
    cases entry.entries.lookup name with
    | none => rfl
    | some inner => exact ih inner

theorem ne_link_of_at? {entry : Entry} (h : entry.LinkFree) (names : List RawText) (target : Path) :
    entry.at? names ≠ some (.link target) := by
  intro hfound
  have hlink : (Entry.link target).LinkFree := by
    refine of_at? (fun entries h => ?_) h hfound
    cases h with
    | directory entries_linkFree => exact entries_linkFree
  cases hlink

/-- What names lead to is listed under its path, unless that is too long. -/
theorem mem_paths_of_at? {entry found : Entry} {path : Path} {names : List RawText}
    (hnames : ∀ name ∈ names, Path.IsName name) (hfound : entry.at? names = some found)
    (hsize : (path.extend names).isTooLong = false) :
    .ok (path.extend names) ∈ entry.paths path := by
  induction names generalizing entry path with
  | nil => cases entry <;> simp [paths, Path.extend]
  | cons name names ih =>
    have hrest := fun n hn => hnames n (List.mem_cons_of_mem _ hn)
    cases hlookup : entry.entries.lookup name with
    | none => simp [at?, hlookup] at hfound
    | some inner =>
      rw [at?, hlookup] at hfound
      obtain ⟨before, after, heq, -⟩ := List.lookup_eq_some_iff.mp hlookup
      have hheld : (name, inner) ∈ entry.entries := by simp [heq]
      have hshort := Path.isTooLong_of_prefix (Path.prefix_extend path hnames) hsize
      cases entry with
      | file | link => simp [entries] at hheld
      | directory entries =>
        rw [paths, hshort]
        exact List.mem_cons_of_mem _
          (mem_pathsOfAll.mpr ⟨(name, inner), hheld, ih hrest hfound hsize⟩)

end Entry

namespace FileSystem

/-- Whether there are no links. -/
def LinkFree (fs : FileSystem) : Prop :=
  fs.root.LinkFree

variable {fs : FileSystem}

/-! ## What a path leads to -/

theorem LinkFree.entryAt?_ne_link (h : fs.LinkFree) (place : Place) (target : Path) :
    fs.entryAt? place ≠ some (.link target) :=
  Entry.ne_link_of_at? h place.reverse target

/-- Without links, looking at the end of a path and looking through it are the same. -/
theorem LinkFree.walkSteps_itself (h : fs.LinkFree)
    (follow other : Place → List RawText → Except FileError Target) (place : Place)
    (steps : List RawText) :
    fs.walkSteps .itself follow place steps = fs.walkSteps .target other place steps := by
  induction steps generalizing place with
  | nil => simp only [walkSteps]
  | cons step rest ih =>
    unfold walkSteps
    rw [ih, ih, ih]
    simp only [reduceCtorEq, false_and, if_false]
    split
    · rfl
    split
    · rfl
    split
    · rfl
    cases hentry : fs.entryAt? (step :: place) with
    | none => cases rest <;> rfl
    | some entry =>
      cases entry with
      | file => cases rest <;> rfl
      | directory => rfl
      | link target => exact absurd hentry (h.entryAt?_ne_link _ target)

theorem LinkFree.entryItself_eq (h : fs.LinkFree) (path : Path) :
    fs.entryItself path = fs.entry path := by
  have hfollow : fs.followSteps .itself linkLimit = fs.followSteps .target linkLimit := by
    funext place steps
    exact h.walkSteps_itself _ _ place steps
  rw [entryItself, entry, entryFor, entryFor, resolve, resolve, hfollow]

/-- A walk lists the entry at the end of its path. -/
theorem LinkFree.walk_eq (h : fs.LinkFree) {path : Path} {entry : Entry}
    (hentry : fs.entry path = .ok entry) : fs.walk path = entry.paths path := by
  unfold walk
  rw [h.entryItself_eq, hentry]
  cases entry <;> rfl

theorem LinkFree.exists_of_mem_walk (h : fs.LinkFree) {path found : Path}
    (hfound : .ok found ∈ fs.walk path) : fs.exists path = true := by
  cases hentry : fs.entry path with
  | ok entry => rw [«exists», hentry, Except.isOk, Except.toBool]
  | error e =>
    rw [walk, h.entryItself_eq, hentry] at hfound
    cases List.mem_singleton.mp hfound

/-! ## Names at the end of a path -/

variable {purpose : Purpose} {follow : Place → List RawText → Except FileError Target}

theorem walkSteps_idle (place : Place) {steps : List RawText}
    (h : ∀ step ∈ steps, Path.isIdle step = true) :
    fs.walkSteps purpose follow place steps = fs.walkSteps purpose follow place [] := by
  induction steps with
  | nil => rfl
  | cons step rest ih =>
    have hidle : fs.walkSteps purpose follow place (step :: rest) =
        fs.walkSteps purpose follow place rest := by
      conv => lhs; unfold walkSteps
      rw [if_pos (h step List.mem_cons_self)]
    exact hidle.trans (ih fun s hs => h s (List.mem_cons_of_mem _ hs))

/-- Without links a step that is not the last one goes on. -/
theorem LinkFree.goesOn_of_walkSteps (h : fs.LinkFree) {place found : Place} {step : RawText}
    {rest : List RawText} (hne : rest ≠ []) {entry : Entry}
    (hwalk : fs.walkSteps purpose follow place (step :: rest) = .ok (.present found entry)) :
    ∃ next, fs.GoesOn place step next ∧
      fs.walkSteps purpose follow next rest = .ok (.present found entry) := by
  rcases walkSteps_cons_cases hwalk with hnext | ⟨-, ⟨hnil, -⟩ | ⟨target, hlink, -⟩⟩
  · exact hnext
  · exact absurd hnil hne
  · exact absurd hlink (h.entryAt?_ne_link _ _)

/-- Names lead down from an entry. -/
theorem LinkFree.at?_of_walkSteps (h : fs.LinkFree) {place found : Place} {above entry : Entry}
    {names : List RawText} (hnames : ∀ name ∈ names, Path.IsName name)
    (habove : fs.entryAt? place = some above)
    (hwalk : fs.walkSteps purpose follow place names = .ok (.present found entry)) :
    above.at? names = some entry := by
  induction names generalizing place above with
  | nil =>
    rw [walkSteps, habove] at hwalk
    cases hwalk
    rfl
  | cons name names ih =>
    have hname := hnames name List.mem_cons_self
    have hrest := fun n hn => hnames n (List.mem_cons_of_mem _ hn)
    have hstep : fs.entryAt? (name :: place) = above.at? [name] := by
      rw [entryAt?] at habove ⊢
      rw [List.reverse_cons, Entry.at?_append, habove, Option.bind_some]
    have hmore : above.at? (name :: names) = (above.at? [name]).bind (·.at? names) :=
      Entry.at?_append above [name] names
    rw [hmore, ← hstep]
    rcases walkSteps_cons_cases hwalk with
      ⟨next, hnext, hdown⟩ | ⟨-, ⟨rfl, rfl, hentry⟩ | ⟨target, hlink, -⟩⟩
    · cases hnext with
      | idle idle => exact absurd idle (by simp [hname.isStep])
      | up _ up => exact absurd up hname.ne_up
      | down _ _ _ held =>
        rw [held, Option.bind_some]
        exact ih hrest held hdown
    · rw [hentry]
      rfl
    · exact absurd hlink (h.entryAt?_ne_link _ _)

/-- What comes before names at the end of a path leads to a directory, also if idle segments are
written behind it, and the names lead down from there. -/
theorem LinkFree.walkSteps_above (h : fs.LinkFree) {place found : Place}
    (hplace : fs.DirectoryAt place) {entry : Entry} {steps names : List RawText}
    (hnames : ∀ name ∈ names, Path.IsName name) (hne : names ≠ [])
    (hwalk : fs.walkSteps .target follow place (steps ++ names) = .ok (.present found entry)) :
    ∃ middle above, above.at? names = some entry ∧
      ∀ idle, (∀ step ∈ idle, Path.isIdle step = true) →
        fs.walkSteps .target follow place (steps ++ idle) = .ok (.present middle above) := by
  induction steps generalizing place with
  | nil =>
    obtain ⟨entries, hentries⟩ := hplace
    refine ⟨place, .directory entries, h.at?_of_walkSteps hnames hentries hwalk, ?_⟩
    intro idle hidle
    rw [List.nil_append, walkSteps_idle place hidle, walkSteps, hentries]
  | cons step rest ih =>
    obtain ⟨next, hnext, hmore⟩ :=
      h.goesOn_of_walkSteps (List.append_ne_nil_of_right_ne_nil rest hne) hwalk
    have htarget : Purpose.target ≠ .writing := by decide
    simp only [List.cons_append, hnext.walkSteps_eq htarget]
    exact ih (hnext.directoryAt hplace) hmore

/-! ## Walks -/

/-- A path that is well spelled and leads somewhere has an entry at its end. -/
theorem entry_eq_ok_iff {path : Path} {entry : Entry} :
    fs.entry path = .ok entry ↔
      path.contains (.char '\x00') = false ∧ path ≠ [] ∧ path.isTooLong = false ∧
        ∃ place, fs.followSteps .target linkLimit (start path fs.working) path.segments =
          .ok (.present place entry) := by
  rw [FileSystem.entry, entryFor, resolve]
  cases path.contains (.char '\x00') with
  | true => simp
  | false =>
    by_cases hnil : path = []
    · simp [hnil]
    cases path.isTooLong with
    | true => simp [hnil]
    | false =>
      simp only [hnil, Bool.false_eq_true, if_false, not_false_eq_true, true_and, ne_eq]
      cases fs.followSteps .target linkLimit (start path fs.working) path.segments with
      | error e => simp
      | ok target => cases target <;> simp

/-- A file is met on the way down from every path in front of its own. -/
theorem LinkFree.mem_walk_of_isFile (h : fs.LinkFree) (hfs : fs.WellFormed) {root : Path}
    (hroot : root ≠ []) {names : List RawText} (hnames : ∀ name ∈ names, Path.IsName name)
    (hfile : fs.isFile (root.extend names) = true) :
    .ok (root.extend names) ∈ fs.walk root := by
  obtain ⟨content, hcontent⟩ := entry_of_isFile hfile
  by_cases hnone : names = []
  · subst hnone
    have hwalk : fs.walk root = [.ok root] := h.walk_eq hcontent
    rw [hwalk]
    exact List.mem_singleton_self _
  obtain ⟨hnul, -, hsize, place, hplace⟩ := entry_eq_ok_iff.mp hcontent
  have hsegments : (root.extend names).segments = root.pieces ++ names := by
    rw [← Path.pieces_extend root hnames]
    refine (Path.segments_eq_pieces _).resolve_right fun hidle => ?_
    exact hfs.not_endsIdle_of_isFile hfile ⟨[], by simp [hidle], rfl⟩
  have hstart : start (root.extend names) fs.working = start root fs.working := by
    rw [start, start, (Path.start_extend hroot hnames).1]
  obtain ⟨follow, hfollow⟩ := fs.exists_followSteps_eq .target
  rw [hsegments, hstart, hfollow] at hplace
  obtain ⟨middle, above, hdown, hall⟩ :=
    h.walkSteps_above (hfs.working.start root) hnames hnone hplace
  have hpresent : fs.walkSteps .target follow (start root fs.working) root.segments =
      .ok (.present middle above) := by
    rcases Path.segments_eq_pieces root with heq | heq
    · rw [heq, ← List.append_nil root.pieces]
      exact hall [] nofun
    · rw [heq]
      exact hall [[]] (by simp [Path.isIdle])
  have hlonger := Path.prefix_extend root hnames
  have hentry : fs.entry root = .ok above := by
    refine entry_eq_ok_iff.mpr ⟨?_, hroot, Path.isTooLong_of_prefix hlonger hsize, middle, ?_⟩
    · rw [← Bool.not_eq_true, List.contains_iff_mem] at hnul ⊢
      exact fun hmem => hnul (hlonger.subset hmem)
    · rw [hfollow, hpresent]
  rw [h.walk_eq hentry]
  exact Entry.mem_paths_of_at? hnames hdown hsize

end FileSystem

end MessageHarvest
