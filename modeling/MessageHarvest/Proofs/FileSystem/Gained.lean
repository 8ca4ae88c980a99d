import MessageHarvest.Proofs.FileSystem.Growth
import MessageHarvest.Proofs.FileSystem.Steps

/-!
# A file is gained

Writing to a path that leads nowhere makes one file, and nothing else changes. There may be links
anywhere, also at the end of the path: the file is then where the last of them leads. Every path
that led somewhere still leads there.

* `FileSystem.Gains`: a file system before and after. `FileSystem.gains_put`: how it comes about.
* `FileSystem.Retains.resolve`: where paths end when nothing is taken away.
* `FileSystem.write_of_not_exists`: what writing does where nothing is.
-/

namespace MessageHarvest.FileSystem

open Entry (Grows AtAdded)

variable {fs fs' : FileSystem} {directory : Place} {name content : RawText} {added : Entry}

/-- A file system, and what it becomes by one more file: one of this name in this directory. -/
structure Gains (fs fs' : FileSystem) (directory : Place) (name content : RawText) : Prop where
  working_eq : fs'.working = fs.working
  absent : fs.entryAt? (name :: directory) = none
  held : fs'.entryAt? (name :: directory) = some (.file content)
  grows : Grows name (.file content) fs.root fs'.root
  atAdded : ∀ place, AtAdded name (.file content) (place = name :: directory) (fs.entryAt? place)
    (fs'.entryAt? place)

theorem gains_put (hdirectory : fs.DirectoryAt directory)
    (habsent : fs.entryAt? (name :: directory) = none) (content : RawText) :
    fs.Gains (fs.put (name :: directory) (.file content)) directory name content := by
  obtain ⟨entries, hentries⟩ := hdirectory
  have hnone : entries.lookup name = none := by
    rw [entryAt?_cons, hentries, Option.bind_some, Entry.at?, Entry.entries] at habsent
    cases hlookup : entries.lookup name with
    | none => rfl
    | some inner => rw [hlookup] at habsent; cases habsent
  have hroot : (fs.put (name :: directory) (.file content)).root =
      fs.root.put (.file content) (directory.reverse ++ [name]) := by
    rw [put, List.reverse_cons]
  refine ⟨rfl, habsent, ?_, ?_, fun place => ?_⟩
  · rw [entryAt?, hroot, List.reverse_cons, Entry.at?_put]
  · rw [hroot]
    exact Entry.grows_put hentries hnone
  · have hplace : place.reverse = directory.reverse ++ [name] → place = name :: directory := by
      intro heq
      rw [← List.reverse_cons] at heq
      exact List.reverse_injective heq
    rw [entryAt?, entryAt?, hroot]
    exact (Entry.atAdded_put hentries hnone rfl place.reverse).imp hplace

/-! ## Paths that led somewhere -/

/-- Nothing is taken away: what is at a place stays there, but that a directory may hold more. -/
def Retains (fs fs' : FileSystem) (name : RawText) (added : Entry) : Prop :=
  ∀ place entry, fs.entryAt? place = some entry →
    ∃ entry', fs'.entryAt? place = some entry' ∧ Grows name added entry entry'

theorem Retains.refl (fs : FileSystem) (name : RawText) (added : Entry) :
    fs.Retains fs name added :=
  fun _ entry hentry => ⟨entry, hentry, .same entry⟩

theorem Gains.retains (h : fs.Gains fs' directory name content) :
    fs.Retains fs' name (.file content) := by
  intro place entry hentry
  have hplace := h.atAdded place
  rw [hentry] at hplace
  cases hentry' : fs'.entryAt? place with
  | none => rw [hentry'] at hplace; cases hplace
  | some entry' =>
    rw [hentry'] at hplace
    cases hplace with
    | some grows => exact ⟨entry', rfl, grows⟩

/-- The end of a path, and its end when nothing was taken away. Where the path led to an entry it
leads to what the entry is now, and where it ended at a missing name it leads to the file of that
name, if there is one now. -/
structure LeadsOn (fs' : FileSystem) (name : RawText) (added : Entry)
    (ends ends' : Except FileError Target) : Prop where
  present : ∀ {place entry}, ends = .ok (.present place entry) →
    ∃ entry', ends' = .ok (.present place entry') ∧ Grows name added entry entry'
  absent : ∀ {directory last content}, ends = .ok (.absent directory last) →
    fs'.entryAt? (last :: directory) = some (.file content) →
      ends' = .ok (.present (last :: directory) (.file content))

theorem LeadsOn.error (e : FileError) (ends' : Except FileError Target) :
    LeadsOn fs' name added (.error e) ends' :=
  ⟨nofun, nofun⟩

theorem LeadsOn.of_grows {entry entry' : Entry} (place : Place)
    (h : Grows name added entry entry') :
    LeadsOn fs' name added (.ok (.present place entry)) (.ok (.present place entry')) where
  present := by
    rintro _ _ ⟨⟩
    exact ⟨entry', rfl, h⟩
  absent := nofun

namespace Retains

variable {purpose : Purpose} {follow follow' : Place → List RawText → Except FileError Target}

/-- Step by step a path goes on as before, through the same links. It may be followed to be written
before: it then fails in more cases, and ends in the same way in all others. -/
theorem walkSteps (h : fs.Retains fs' name added) (hpurpose : purpose ≠ .itself)
    (hfollow : ∀ place steps,
      LeadsOn fs' name added (follow place steps) (follow' place steps))
    (place : Place) (steps : List RawText) :
    LeadsOn fs' name added (fs.walkSteps purpose follow place steps)
      (fs'.walkSteps .target follow' place steps) := by
  induction steps generalizing place with
  | nil =>
    unfold FileSystem.walkSteps
    cases hentry : fs.entryAt? place with
    | none => exact .error _ _
    | some entry =>
      obtain ⟨entry', hentry', hgrows⟩ := h place entry hentry
      rw [hentry']
      exact .of_grows place hgrows
  | cons step rest ih =>
    unfold FileSystem.walkSteps
    simp only [reduceCtorEq, false_and, if_false]
    by_cases hidle : Path.isIdle step
    · simp only [if_pos hidle]
      exact ih place
    by_cases hup : step = Path.up
    · simp only [if_neg hidle, if_pos hup]
      exact ih place.tail
    simp only [if_neg hidle, if_neg hup]
    split
    · exact .error _ _
    by_cases hlong : nameLimit < step.byteCount
    · simp only [if_pos hlong]
      exact .error _ _
    simp only [if_neg hlong, if_neg (fun both => hpurpose (And.left both))]
    cases hentry : fs.entryAt? (step :: place) with
    | none =>
      cases rest with
      | nil =>
        refine ⟨nofun, ?_⟩
        rintro _ _ held ⟨⟩ hheld
        rw [hheld]
      | cons => exact .error _ _
    | some entry =>
      obtain ⟨entry', hentry', hgrows⟩ := h _ entry hentry
      rw [hentry']
      -- a file or a link is what it was, and a directory still is one
      rcases hgrows.eq_or_directory with rfl | ⟨entries, entries', rfl, rfl⟩
      · cases entry' with
        | file held =>
          cases rest with
          | nil => exact .of_grows _ (.same _)
          | cons => exact .error _ _
        | directory entries => exact ih (step :: place)
        | link target => exact hfollow _ _
      · exact ih (step :: place)

theorem followSteps (h : fs.Retains fs' name added) (hpurpose : purpose ≠ .itself) (links : Nat)
    (place : Place) (steps : List RawText) :
    LeadsOn fs' name added (fs.followSteps purpose links place steps)
      (fs'.followSteps .target links place steps) := by
  induction links generalizing place steps with
  | zero => exact h.walkSteps hpurpose (fun _ _ => .error _ _) place steps
  | succ links ih => exact h.walkSteps hpurpose ih place steps

theorem resolve (h : fs.Retains fs' name added) (hworking : fs'.working = fs.working)
    (hpurpose : purpose ≠ .itself) (path : Path) :
    LeadsOn fs' name added (fs.resolve purpose path) (fs'.resolve .target path) := by
  rcases resolve_refused_or path with ⟨e, hrefused⟩ | hfollowed
  · rw [hrefused]
    exact .error e _
  · rw [hfollowed, hfollowed, hworking]
    exact h.followSteps hpurpose linkLimit _ _

end Retains

theorem read_eq_ok_iff {path : Path} :
    fs.read path = .ok content ↔
      ∃ place, fs.resolve .target path = .ok (.present place (.file content)) := by
  rw [read, entry_eq_entryOf]
  cases hends : fs.resolve .target path with
  | error e => simp [entryOf]
  | ok ends =>
    cases ends with
    | absent directory last => simp [entryOf]
    | present place entry => cases entry <;> simp [entryOf]

/-- What could be read is read as before. -/
theorem Gains.read (h : fs.Gains fs' directory name content) {path : Path} {held : RawText}
    (hread : fs.read path = .ok held) : fs'.read path = .ok held := by
  obtain ⟨place, hends⟩ := read_eq_ok_iff.mp hread
  have htarget : Purpose.target ≠ .itself := nofun
  obtain ⟨entry', hends', hgrows⟩ := (h.retains.resolve h.working_eq htarget path).present hends
  obtain rfl : entry' = .file held := hgrows.eq_or_directory.resolve_right nofun
  exact read_eq_ok_iff.mpr ⟨place, hends'⟩

theorem Gains.entryAt?_file (h : fs.Gains fs' directory name content) {place : Place}
    {held : RawText} (hheld : fs.entryAt? place = some (.file held)) :
    fs'.entryAt? place = some (.file held) := by
  obtain ⟨entry', hentry', hgrows⟩ := h.retains place _ hheld
  obtain rfl : entry' = .file held := hgrows.eq_or_directory.resolve_right nofun
  exact hentry'

/-! ## Writing where nothing is -/

/-- A name that is missing is missing in a directory. -/
theorem walkSteps_absent {purpose : Purpose}
    {follow : Place → List RawText → Except FileError Target}
    (hfollow : ∀ place steps, fs.DirectoryAt place →
      follow place steps = .ok (.absent directory name) →
        fs.DirectoryAt directory ∧ fs.entryAt? (name :: directory) = none)
    {place : Place} {steps : List RawText} (hplace : fs.DirectoryAt place)
    (h : fs.walkSteps purpose follow place steps = .ok (.absent directory name)) :
    fs.DirectoryAt directory ∧ fs.entryAt? (name :: directory) = none := by
  induction steps generalizing place with
  | nil =>
    obtain ⟨entries, hentries⟩ := hplace
    rw [walkSteps, hentries] at h
    cases h
  | cons step rest ih =>
    rcases walkSteps_cons_ok h with
      ⟨next, hstep, hmore⟩ | ⟨-, ⟨-, ⟨_, -, hends⟩ | ⟨hnone, hends⟩⟩ | ⟨target, -, hlink⟩⟩
    · exact ih (hstep.directoryAt hplace) hmore
    · cases hends
    · cases hends
      exact ⟨hplace, hnone⟩
    · exact hfollow _ _ (hplace.start _) hlink

theorem followSteps_absent {purpose : Purpose} {links : Nat} {place : Place}
    {steps : List RawText} (hplace : fs.DirectoryAt place)
    (h : fs.followSteps purpose links place steps = .ok (.absent directory name)) :
    fs.DirectoryAt directory ∧ fs.entryAt? (name :: directory) = none := by
  induction links generalizing place steps with
  | zero => exact walkSteps_absent (fun _ _ _ h => by cases h) hplace h
  | succ links ih => exact walkSteps_absent (fun _ _ => ih) hplace h

theorem resolve_absent {purpose : Purpose} {path : Path} (hworking : fs.DirectoryAt fs.working)
    (h : fs.resolve purpose path = .ok (.absent directory name)) :
    fs.DirectoryAt directory ∧ fs.entryAt? (name :: directory) = none := by
  rcases resolve_refused_or path with ⟨e, hrefused⟩ | hfollowed
  · cases (hrefused fs purpose).symm.trans h
  · rw [hfollowed] at h
    exact followSteps_absent (hworking.start path) h

/-- What is found to be written to exists. -/
theorem exists_of_writing {path : Path} {place : Place} {entry : Entry}
    (h : fs.resolve .writing path = .ok (.present place entry)) : fs.exists path = true := by
  -- the same file system, with nothing added
  have hwriting : Purpose.writing ≠ .itself := nofun
  obtain ⟨entry', hends, -⟩ :=
    ((Retains.refl fs [] (.file [])).resolve rfl hwriting path).present h
  refine exists_iff.mpr ⟨entry', ?_⟩
  rw [entry_eq_entryOf, hends, entryOf]

/-- Writing to a path that leads nowhere fails, or it makes a file to which the path then leads, and
changes nothing else. -/
theorem write_of_not_exists (hworking : fs.DirectoryAt fs.working) {path : Path}
    (hexists : fs.exists path = false) (content : RawText) :
    (∃ e, fs.write path content = .error e) ∨
      ∃ fs' directory name, fs.write path content = .ok fs' ∧
        fs.Gains fs' directory name content ∧
        fs'.resolve .target path = .ok (.present (name :: directory) (.file content)) := by
  have hwriting : Purpose.writing ≠ .itself := nofun
  rw [write]
  cases hends : fs.resolve .writing path with
  | error e => exact .inl ⟨e, rfl⟩
  | ok ends =>
    cases ends with
    | present place entry => cases (exists_of_writing hends).symm.trans hexists
    | absent directory name =>
      obtain ⟨hdirectory, habsent⟩ := resolve_absent hworking hends
      have hgains := gains_put hdirectory habsent content
      exact .inr ⟨_, directory, name, rfl, hgains,
        (hgains.retains.resolve hgains.working_eq hwriting path).absent hends hgains.held⟩

end MessageHarvest.FileSystem
