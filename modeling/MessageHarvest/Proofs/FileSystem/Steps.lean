import MessageHarvest.Proofs.FileSystem.Descent

/-!
# From directory to directory

Without links the steps of a path say from which directory to which they lead, whatever else the
path is spelled with. What comes after them is followed from the last of these directories on.

* `FileSystem.Follows`: steps that lead from directory to directory. `FileSystem.reached` is where
  they lead.
* `FileSystem.LinkFree.follows_of_entry`: the steps of a path that leads to a directory do.
* `FileSystem.placeOf?`: where a path leads. `FileSystem.LinkFree.placeOf?_join`: a name behind such
  a path leads to the entry of that name.
-/

namespace MessageHarvest

namespace Path

theorem component?_of_isIdle {step : RawText} (h : isIdle step = true) : component? step = none :=
  if_pos h

theorem component?_up : component? up = some .up := by decide

theorem component?_of_ne_up {step : RawText} (hidle : isIdle step = false) (hup : step ≠ up) :
    component? step = some (.name step) := by
  rw [component?, if_neg (by simp [hidle]), if_neg hup]

end Path

namespace FileSystem

open MessageHarvest.Path (Component component? component?_of_isIdle component?_up
  component?_of_ne_up)

variable {fs : FileSystem}

theorem entryAt?_cons (fs : FileSystem) (name : RawText) (place : Place) :
    fs.entryAt? (name :: place) = (fs.entryAt? place).bind (·.at? [name]) := by
  rw [entryAt?, entryAt?, List.reverse_cons, Entry.at?_append]

/-! ## Steps through directories -/

/-- Whether the steps lead from one place to another through directories only. -/
inductive Follows (fs : FileSystem) : Place → List Component → Place → Prop
  | nil (place : Place) : Follows fs place [] place
  | up {place found : Place} {rest : List Component} (more : Follows fs place.tail rest found) :
      Follows fs place (.up :: rest) found
  | name {place found : Place} {rest : List Component} {name : RawText}
      {entries : List (RawText × Entry)} (short : ¬ nameLimit < name.byteCount)
      (held : fs.entryAt? (name :: place) = some (.directory entries))
      (more : Follows fs (name :: place) rest found) :
      Follows fs place (.name name :: rest) found

/-- Where one step leads. -/
def stepFrom (place : Place) : Component → Place
  | .up => place.tail
  | .name name => name :: place
  | .root | .here => place

/-- Where steps lead. -/
def reached (place : Place) (steps : List Component) : Place :=
  steps.foldl stepFrom place

theorem reached_concat (place : Place) (steps : List Component) (last : Component) :
    reached place (steps ++ [last]) = stepFrom (reached place steps) last :=
  List.foldl_concat ..

namespace Follows

variable {place middle found : Place} {steps more : List Component}

theorem reached_eq (h : fs.Follows place steps found) : reached place steps = found := by
  induction h with
  | nil place => rfl
  | up _ ih => exact ih
  | name _ _ _ ih => exact ih

theorem directoryAt (h : fs.Follows place steps found) (hplace : fs.DirectoryAt place) :
    fs.DirectoryAt found := by
  induction h with
  | nil place => exact hplace
  | up _ ih => exact ih hplace.tail
  | name _ held _ ih => exact ih ⟨_, held⟩

/-- Fewer steps lead to a directory on the way. -/
theorem of_append (h : fs.Follows place (steps ++ more) found) :
    ∃ middle, fs.Follows place steps middle ∧ fs.Follows middle more found := by
  induction steps generalizing place with
  | nil => exact ⟨place, .nil place, h⟩
  | cons step steps ih =>
    cases h with
    | up rest =>
      obtain ⟨middle, hfirst, hmore⟩ := ih rest
      exact ⟨middle, .up hfirst, hmore⟩
    | name short held rest =>
      obtain ⟨middle, hfirst, hmore⟩ := ih rest
      exact ⟨middle, .name short held hfirst, hmore⟩

/-- A step that goes on, and what leads on from there. -/
theorem of_goesOn {step : RawText} {rest : List RawText} (h : fs.GoesOn place step middle)
    (hmore : fs.Follows middle (rest.filterMap component?) found) :
    fs.Follows place ((step :: rest).filterMap component?) found := by
  cases h with
  | idle idle =>
    rwa [List.filterMap_cons_none (component?_of_isIdle idle)]
  | up _ up =>
    rw [up, List.filterMap_cons_some component?_up]
    exact .up hmore
  | down idle ne_up short held =>
    rw [List.filterMap_cons_some (component?_of_ne_up idle ne_up)]
    exact .name short held hmore

/-- Segments whose steps lead somewhere lead there, and the others are followed from there on. -/
theorem walkSteps_append {purpose : Purpose} (hpurpose : purpose ≠ .writing)
    (follow : Place → List RawText → Except FileError Target) {segments : List RawText}
    (h : fs.Follows place (segments.filterMap component?) found) (rest : List RawText) :
    fs.walkSteps purpose follow place (segments ++ rest) =
      fs.walkSteps purpose follow found rest := by
  induction segments generalizing place with
  | nil =>
    cases h
    rfl
  | cons step segments ih =>
    rw [List.cons_append]
    cases hidle : Path.isIdle step with
    | true =>
      rw [List.filterMap_cons_none (component?_of_isIdle hidle)] at h
      rw [(GoesOn.idle hidle).walkSteps_eq hpurpose]
      exact ih h
    | false =>
      by_cases hup : step = Path.up
      · rw [(GoesOn.up hidle hup).walkSteps_eq hpurpose]
        rw [hup, List.filterMap_cons_some component?_up] at h
        cases h with
        | up more => exact ih more
      · rw [List.filterMap_cons_some (component?_of_ne_up hidle hup)] at h
        cases h with
        | name short held more =>
          rw [(GoesOn.down hidle hup short held).walkSteps_eq hpurpose]
          exact ih more

end Follows

/-! ## Paths that lead to directories -/

variable {follow : Place → List RawText → Except FileError Target} {place found : Place}

/-- What comes before other segments leads through directories. -/
theorem LinkFree.follows_of_walkSteps (hlinks : fs.LinkFree) {segments rest : List RawText}
    (hrest : rest ≠ []) {entry : Entry}
    (h : fs.walkSteps .target follow place (segments ++ rest) = .ok (.present found entry)) :
    ∃ middle, fs.Follows place (segments.filterMap component?) middle ∧
      fs.walkSteps .target follow middle rest = .ok (.present found entry) := by
  induction segments generalizing place with
  | nil => exact ⟨place, .nil place, h⟩
  | cons step segments ih =>
    have hne : segments ++ rest ≠ [] := List.append_ne_nil_of_right_ne_nil segments hrest
    obtain ⟨next, hnext, hmore⟩ := hlinks.goesOn_of_walkSteps hne h
    obtain ⟨middle, hfollows, hlast⟩ := ih hmore
    exact ⟨middle, .of_goesOn hnext hfollows, hlast⟩

/-- Segments that end at a directory lead through directories. -/
theorem LinkFree.follows_of_directory (hlinks : fs.LinkFree) {segments : List RawText}
    {entries : List (RawText × Entry)}
    (h : fs.walkSteps .target follow place segments = .ok (.present found (.directory entries))) :
    fs.Follows place (segments.filterMap component?) found := by
  induction segments generalizing place with
  | nil =>
    unfold walkSteps at h
    split at h
    · cases h
      exact .nil _
    · cases h
  | cons step rest ih =>
    rcases walkSteps_cons_cases h with
      ⟨next, hnext, hmore⟩ | ⟨hidle, ⟨rfl, rfl, hentry⟩ | ⟨target, hlink, -⟩⟩
    · exact .of_goesOn hnext (ih hmore)
    · have htarget : Purpose.target ≠ .writing := by decide
      have hup : step ≠ Path.up := by
        intro hup
        rw [(GoesOn.up hidle hup).walkSteps_eq htarget, walkSteps] at h
        split at h
        · have hlength := congrArg List.length (Target.present.inj (Except.ok.inj h)).1
          simp at hlength
        · cases h
      have hshort : ¬ nameLimit < step.byteCount := by
        intro hlong
        unfold walkSteps at h
        rw [if_neg (by simp [hidle]), if_neg hup, if_neg (by simp), if_pos hlong] at h
        cases h
      exact .of_goesOn (.down hidle hup hshort hentry) (.nil _)
    · exact absurd hlink (hlinks.entryAt?_ne_link _ _)

theorem start_of_relative {path : Path} (h : path.isAbsolute = false) (place : Place) :
    start path place = place := by
  rw [start, if_neg (by simp [h])]

/-- A path that can be followed is. -/
theorem resolve_eq {purpose : Purpose} {path : Path} (hnul : path.contains (.char '\x00') = false)
    (hne : path ≠ []) (hsize : path.isTooLong = false) :
    fs.resolve purpose path =
      fs.followSteps purpose linkLimit (start path fs.working) path.segments := by
  rw [resolve, hnul, if_neg Bool.false_ne_true, if_neg hne, hsize, if_neg Bool.false_ne_true]

/-- The entry at the end of a way. -/
def entryOf : Except FileError Target → Except FileError Entry
  | .ok (.present _ entry) => .ok entry
  | .ok (.absent _ _) => .error .notFound
  | .error e => .error e

theorem entry_eq_entryOf (fs : FileSystem) (path : Path) :
    fs.entry path = entryOf (fs.resolve .target path) := by
  rw [entry, entryFor]
  cases fs.resolve .target path with
  | error e => rfl
  | ok target => cases target <;> rfl

/-- The place of the entry to which a path leads. -/
def placeOf? (fs : FileSystem) (path : Path) : Option Place :=
  match fs.resolve .target path with
  | .ok (.present place _) => some place
  | _ => none

theorem exists_eq_isSome_placeOf? (fs : FileSystem) (path : Path) :
    fs.exists path = (fs.placeOf? path).isSome := by
  rw [«exists», entry, entryFor, placeOf?]
  cases fs.resolve .target path with
  | error e => rfl
  | ok target => cases target <;> rfl

theorem exists_iff {path : Path} : fs.exists path = true ↔ ∃ entry, fs.entry path = .ok entry := by
  rw [«exists»]
  cases fs.entry path with
  | error e => simp [Except.isOk, Except.toBool]
  | ok entry => exact ⟨fun _ => ⟨entry, rfl⟩, fun _ => rfl⟩

theorem entry_of_isDirectory {path : Path} (h : fs.isDirectory path = true) :
    ∃ entries, fs.entry path = .ok (.directory entries) := by
  unfold isDirectory at h
  split at h
  · rename_i entry hentry
    cases entry with
    | directory entries => exact ⟨entries, hentry⟩
    | file | link => cases h
  · cases h

theorem entries_eq_nil {path : Path} (h : fs.isDirectory path = false) : fs.entries path = [] := by
  rw [isDirectory] at h
  rw [entries]
  cases hentry : fs.entry path with
  | error e => rfl
  | ok entry =>
    rw [hentry] at h
    cases entry with
    | file | link => rfl
    | directory => cases h

/-- The steps of a path that leads to a directory lead to its place. -/
theorem LinkFree.follows_of_entry (hlinks : fs.LinkFree) {path : Path}
    {entries : List (RawText × Entry)} (h : fs.entry path = .ok (.directory entries)) :
    ∃ found, fs.placeOf? path = some found ∧
      fs.Follows (start path fs.working) path.steps found ∧
      fs.entryAt? found = some (.directory entries) := by
  obtain ⟨hnul, hne, hsize, found, hfound⟩ := entry_eq_ok_iff.mp h
  have hplace : fs.placeOf? path = some found := by
    rw [placeOf?, resolve_eq hnul hne hsize, hfound]
  obtain ⟨follow, hfollow⟩ := fs.exists_followSteps_eq .target
  have hfollows := hlinks.follows_of_directory (hfollow ▸ hfound)
  rw [Path.filterMap_segments] at hfollows
  exact ⟨found, hplace, hfollows, followSteps_present hfound⟩

theorem LinkFree.walkSteps_name (hlinks : fs.LinkFree) {name : RawText} (hname : Path.IsName name)
    (hshort : ¬ nameLimit < name.byteCount) :
    fs.walkSteps .target follow place [name] =
      match fs.entryAt? (name :: place) with
      | some entry => .ok (.present (name :: place) entry)
      | none => .ok (.absent place name) := by
  unfold walkSteps
  rw [if_neg (by simp [hname.isStep]), if_neg hname.ne_up, if_neg (by simp), if_neg hshort]
  cases hentry : fs.entryAt? (name :: place) with
  | none => rfl
  | some entry =>
    cases entry with
    | file content => rfl
    | directory entries => simp only [walkSteps, hentry]
    | link target => exact absurd hentry (hlinks.entryAt?_ne_link _ target)

/-- A name in a directory to which steps lead. -/
theorem LinkFree.placeOf?_join (hlinks : fs.LinkFree) {path : Path}
    (hrelative : path.isAbsolute = false) (h : fs.Follows fs.working path.steps found)
    {name : RawText} (hname : Path.IsName name) (hshort : ¬ nameLimit < name.byteCount)
    (hnul : (path.join name).contains (.char '\x00') = false)
    (hsize : (path.join name).isTooLong = false) :
    fs.placeOf? (path.join name) = (fs.entryAt? (name :: found)).map fun _ => name :: found := by
  have hne : path.join name ≠ [] := by
    intro hnil
    have hpieces := congrArg Path.pieces hnil
    rw [Path.pieces_join path hname.isAbsolute, hname.pieces, Path.pieces_nil] at hpieces
    exact List.append_ne_nil_of_right_ne_nil _ (List.cons_ne_nil _ _) hpieces
  have hjoined : (path.join name).isAbsolute = false :=
    (Path.isAbsolute_join path hname.isAbsolute).trans hrelative
  have hsegments : (path.join name).segments = path.pieces ++ [name] := by
    rw [Path.segments_join path hname.isAbsolute, Path.segments_of_not_mem hname.no_separator]
  have htarget : Purpose.target ≠ .writing := nofun
  obtain ⟨follow, hfollow⟩ := fs.exists_followSteps_eq .target
  rw [placeOf?, resolve_eq hnul hne hsize, start_of_relative hjoined, hfollow, hsegments,
    h.walkSteps_append htarget, hlinks.walkSteps_name hname hshort]
  cases fs.entryAt? (name :: found) <;> rfl

/-- A path that can be followed, if only there is what it leads to. -/
def isFollowable (path : Path) : Bool :=
  !path.contains (.char '\x00') && path ≠ [] && !path.isTooLong

theorem isFollowable_iff {path : Path} : isFollowable path = true ↔
    path.contains (.char '\x00') = false ∧ path ≠ [] ∧ path.isTooLong = false := by
  simp [isFollowable, and_assoc]

/-- A path whose steps lead to a directory leads there if it can be followed. -/
theorem Follows.isDirectory_eq {path : Path} (hrelative : path.isAbsolute = false)
    (hworking : fs.DirectoryAt fs.working) (h : fs.Follows fs.working path.steps found) :
    fs.isDirectory path = isFollowable path ∧ fs.exists path = isFollowable path := by
  cases hpath : isFollowable path with
  | true =>
    obtain ⟨hnul, hne, hsize⟩ := isFollowable_iff.mp hpath
    obtain ⟨entries, hentries⟩ := h.directoryAt hworking
    obtain ⟨follow, hfollow⟩ := fs.exists_followSteps_eq .target
    have htarget : Purpose.target ≠ .writing := nofun
    have hentry : fs.entry path = .ok (.directory entries) := by
      rw [← Path.filterMap_segments] at h
      have hall := h.walkSteps_append htarget follow []
      rw [List.append_nil, walkSteps, hentries] at hall
      exact entry_eq_ok_iff.mpr ⟨hnul, hne, hsize, found, by
        rw [start_of_relative hrelative, hfollow, hall]⟩
    rw [isDirectory, «exists», hentry]
    exact ⟨rfl, rfl⟩
  | false =>
    cases hentry : fs.entry path with
    | ok entry =>
      obtain ⟨hnul, hne, hsize, -⟩ := entry_eq_ok_iff.mp hentry
      rw [isFollowable_iff.mpr ⟨hnul, hne, hsize⟩] at hpath
      cases hpath
    | error e =>
      rw [isDirectory, «exists», hentry]
      exact ⟨rfl, rfl⟩

end FileSystem

end MessageHarvest
