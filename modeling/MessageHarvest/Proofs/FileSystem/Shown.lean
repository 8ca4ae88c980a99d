import MessageHarvest.Proofs.FileSystem.Added

/-!
# Paths as they are shown

What is shown of a path has a replacement character in the place of each run of stray bytes. It
takes the steps that the path takes, but for the names that are no text.

* `RawText.shown`: what is shown, as a path or a name of its own.
* `Path.segments_shown`: it is shown segment by segment.
* `FileSystem.ShownAs`: where one may be led by what is shown of a way to another place.
* `FileSystem.ShownApart`: what is shown of ways into directories of a name leads into none of this
  name in a given directory. So it is wherever no replacement character stands in the names above.
* `FileSystem.Adds.read_shown`: to look for a path by what is shown of it has the same end when a
  file of such a name has been added.
-/

namespace MessageHarvest

namespace RawText

/-- What is shown of a text, as a path or a name. -/
def shown (raw : RawText) : RawText :=
  ofString raw.lossy

theorem shown_eq_map (raw : RawText) : raw.shown = raw.map fun g => .char g.shown := by
  rw [shown, ofString, lossy, String.toList_ofList, List.map_map]
  rfl

theorem shown_cons (g : Glyph) (raw : RawText) :
    shown (g :: raw) = .char g.shown :: raw.shown := by
  rw [shown_eq_map, shown_eq_map, List.map_cons]

/-- Where no replacement character is shown, all is text. -/
theorem shown_eq_self {raw : RawText} (hmark : .char '\uFFFD' ∉ raw.shown) : raw.shown = raw := by
  rw [shown_eq_map] at hmark ⊢
  have hsame : ∀ g ∈ raw, Glyph.char g.shown = g := by
    intro g hg
    cases g with
    | char c => rfl
    | stray bytes => exact absurd (List.mem_map_of_mem hg) hmark
  rw [List.map_congr_left hsame, List.map_id']

theorem shown_eq_iff {raw text : RawText} (htext : text.IsText)
    (hmark : .char '\uFFFD' ∉ text) : raw.shown = text ↔ raw = text := by
  constructor
  · rintro rfl
    exact (shown_eq_self hmark).symm
  · rintro rfl
    exact htext.ofString_lossy

end RawText

namespace Path

theorem separator_eq_shown_iff (g : Glyph) : .char g.shown = separator ↔ g = separator := by
  cases g with
  | char c => rfl
  | stray bytes => simp [Glyph.shown, separator]

/-- A path is shown segment by segment. -/
theorem segments_shown (path : Path) : segments path.shown = path.segments.map RawText.shown := by
  induction path with
  | nil => rfl
  | cons g gs ih =>
    rw [RawText.shown_cons, segments, segments]
    simp only [separator_eq_shown_iff]
    split
    · rw [ih]
      rfl
    · obtain ⟨s, ss, hsegments⟩ := List.exists_cons_of_ne_nil (segments_ne_nil gs)
      rw [ih, hsegments]
      simp only [List.map_cons, RawText.shown_cons]

theorem isIdle_shown (segment : RawText) : isIdle segment.shown = isIdle segment := by
  have hnil : segment.shown = [] ↔ segment = [] := RawText.shown_eq_iff (by decide) (by decide)
  have hhere : segment.shown = here ↔ segment = here := RawText.shown_eq_iff (by decide) (by decide)
  simp only [isIdle, hnil, hhere]

theorem shown_eq_up_iff {segment : RawText} : segment.shown = up ↔ segment = up :=
  RawText.shown_eq_iff (by decide) (by decide)

theorem isAbsolute_shown (path : Path) : isAbsolute path.shown = path.isAbsolute := by
  rw [RawText.shown_eq_map]
  cases path with
  | nil => rfl
  | cons g gs => simp [isAbsolute, separator_eq_shown_iff]

end Path

namespace FileSystem

open MessageHarvest.Path (component? component?_of_isIdle component?_up component?_of_ne_up)

variable {fs : FileSystem}

/-! ## Where what is shown leads -/

/-- What is shown of a way to the one place leads to the other: to go from a directory above both of
them, the names of the one are shown. -/
def ShownAs (place place' : Place) : Prop :=
  ∃ below above, place = below ++ above ∧ place' = below.map RawText.shown ++ above

namespace ShownAs

variable {place place' : Place}

theorem refl (place : Place) : ShownAs place place :=
  ⟨[], place, rfl, rfl⟩

theorem tail (h : ShownAs place place') : ShownAs place.tail place'.tail := by
  obtain ⟨below, above, rfl, rfl⟩ := h
  cases below with
  | nil => exact .refl above.tail
  | cons name below => exact ⟨below, above, rfl, rfl⟩

theorem cons (h : ShownAs place place') (name : RawText) :
    ShownAs (name :: place) (name.shown :: place') := by
  obtain ⟨below, above, rfl, rfl⟩ := h
  exact ⟨name :: below, above, rfl, rfl⟩

/-- Steps and the steps that are shown of them. -/
theorem reached (segments : List RawText) (h : ShownAs place place') :
    ShownAs (FileSystem.reached place (segments.filterMap component?))
      (FileSystem.reached place' ((segments.map RawText.shown).filterMap component?)) := by
  induction segments generalizing place place' with
  | nil => exact h
  | cons step rest ih =>
    rw [List.map_cons]
    cases hidle : Path.isIdle step with
    | true =>
      rw [List.filterMap_cons_none (component?_of_isIdle hidle),
        List.filterMap_cons_none (component?_of_isIdle ((Path.isIdle_shown step).trans hidle))]
      exact ih h
    | false =>
      by_cases hup : step = Path.up
      · rw [Path.shown_eq_up_iff.mpr hup, hup, List.filterMap_cons_some component?_up,
          List.filterMap_cons_some component?_up]
        exact ih h.tail
      · rw [List.filterMap_cons_some (component?_of_ne_up hidle hup),
          List.filterMap_cons_some (component?_of_ne_up ((Path.isIdle_shown step).trans hidle)
            (fun hshown => hup (Path.shown_eq_up_iff.mp hshown)))]
        exact ih (h.cons step)

/-- Only a way to a place itself is shown as one without replacement characters. -/
theorem eq_of_not_mem (h : ShownAs place place') (hmark : ∀ name ∈ place', .char '\uFFFD' ∉ name) :
    place = place' := by
  obtain ⟨below, above, rfl, rfl⟩ := h
  have hsame : ∀ name ∈ below, name.shown = name := by
    intro name hname
    have hshown : name.shown ∈ below.map RawText.shown ++ above :=
      List.mem_append_left above (List.mem_map_of_mem hname)
    exact RawText.shown_eq_self (hmark name.shown hshown)
  rw [List.map_congr_left hsame, List.map_id']

end ShownAs

/-- No way into a directory of this name is shown as one into such a directory here. -/
def ShownApart (fs : FileSystem) (directory : Place) (name : RawText) : Prop :=
  ∀ place, fs.DirectoryAt (name :: place) → ¬ ShownAs place directory

/-- Where no replacement character stands in the names above, it is enough that there is no
directory of the name. -/
theorem shownApart_of_not_mem {directory : Place} {name : RawText}
    (habsent : ¬ fs.DirectoryAt (name :: directory))
    (hmark : ∀ above ∈ directory, .char '\uFFFD' ∉ above) : fs.ShownApart directory name := by
  intro place hplace hshown
  rw [hshown.eq_of_not_mem hmark] at hplace
  exact habsent hplace

namespace Adds

variable {fs' : FileSystem} {directory : Place} {name content : RawText}

/-- What is shown of a path that leads to something of another name does not pass a new file. -/
theorem not_passes_shown (h : Adds fs fs' directory name content)
    (hapart : fs.ShownApart directory name) (hmark : .char '\uFFFD' ∉ name) {path : Path}
    {entry : Entry} (hentry : fs.entry path = .ok entry) (hname : path.fileName? ≠ some name)
    (rest : List RawText) : ¬ fs.Passes directory name path.shown rest := by
  rintro ⟨front, hsegments, hfollows⟩
  rw [Path.segments_shown] at hsegments
  obtain ⟨before, after, hpath, rfl, hafter⟩ := List.map_eq_append_iff.mp hsegments
  obtain ⟨step, more, rfl, hstep, -⟩ := List.map_eq_cons_iff.mp hafter
  obtain rfl : step = name := (RawText.shown_eq_iff h.isName.isText hmark).mp hstep
  have hmore : more ≠ [] := by
    rintro rfl
    exact hname (Path.fileName?_of_segments h.isName hpath)
  -- the path goes on behind the name, so the name leads to a directory
  obtain ⟨-, -, -, place, hplace⟩ := entry_eq_ok_iff.mp hentry
  obtain ⟨follow, hfollow⟩ := fs.exists_followSteps_eq .target
  rw [hfollow, hpath, List.append_cons] at hplace
  obtain ⟨middle, hmiddle, -⟩ := h.linkFree.follows_of_walkSteps hmore hplace
  have hdirectory := hmiddle.directoryAt (h.working.start path)
  rw [← hmiddle.reached_eq, List.filterMap_append,
    List.filterMap_cons_some (component?_of_ne_up h.isName.isStep h.isName.ne_up),
    List.filterMap_nil, reached_concat] at hdirectory
  have hstart : start path.shown fs.working = start path fs.working := by
    rw [start, start, Path.isAbsolute_shown]
  have hshown := (ShownAs.refl (start path fs.working)).reached before
  rw [← hstart, hfollows.reached_eq, hstart] at hshown
  exact hapart _ hdirectory hshown

/-- What is shown of a path that leads to something leads to what it led to. -/
theorem read_shown (h : Adds fs fs' directory name content) (hapart : fs.ShownApart directory name)
    (hmark : .char '\uFFFD' ∉ name) {path : Path} {entry : Entry}
    (hentry : fs.entry path = .ok entry) (hname : path.fileName? ≠ some name) :
    fs'.read path.shown = fs.read path.shown := by
  have hbeside := h.not_passes_shown hapart hmark hentry hname
  rw [read, read]
  cases h.entry_cases path.shown with
  | error failed failed' => rw [failed, failed']
  | new passes => exact absurd passes (hbeside [])
  | behind _ passes => exact absurd passes (hbeside _)
  | grows _ leads leads' _ _ grows =>
    rw [leads, leads']
    rcases grows.eq_or_directory with rfl | ⟨entries, entries', rfl, rfl⟩ <;> rfl

end Adds

end FileSystem

end MessageHarvest
