import MessageHarvest.Proofs.FileSystem.Gained

/-!
# A file is added

A new file in a directory changes nothing of what there is, but that one more name leads somewhere.
A path that led nowhere may now lead to the file, or fail at it in another way.

* `FileSystem.Adds`: a file system before and after. `FileSystem.Adds.atAdded` tells its entries.
* `FileSystem.Adds.entry_cases`: what paths lead to.
* `FileSystem.Adds.isDirectory_eq`, `FileSystem.Adds.of_exists`, `FileSystem.Adds.isFile_eq`: what
  can be asked of them.
-/

namespace MessageHarvest

open MessageHarvest.Path (component? component?_of_ne_up)

namespace Path

/-- A path whose last segment is a name ends in it. -/
theorem fileName?_of_segments {path : Path} {front : List RawText} {name : RawText}
    (hname : IsName name) (h : path.segments = front ++ [name]) : path.fileName? = some name := by
  have hlast : path.components.getLast? = some (.name name) := by
    rw [components_eq, ← filterMap_segments, h, List.filterMap_append,
      List.filterMap_cons_some (component?_of_ne_up hname.isStep hname.ne_up), List.filterMap_nil,
      ← List.append_assoc, List.getLast?_concat]
  rw [fileName?, hlast]

theorem fileName?_join (above : Path) {name : RawText} (hname : IsName name) :
    (above.join name).fileName? = some name := by
  have hsegments : (above.join name).segments = above.pieces ++ [name] := by
    rw [segments_join above hname.isAbsolute, segments_of_not_mem hname.no_separator]
  exact fileName?_of_segments hname hsegments

end Path

/-! ## A file system with one more file -/

namespace FileSystem

open Entry (Grows AtAdded)

/-- Two file systems without links, of which the second has one more file: one of this name in this
directory. -/
structure Adds (fs fs' : FileSystem) (directory : Place) (name content : RawText) : Prop where
  linkFree : fs.LinkFree
  working : fs.DirectoryAt fs.working
  directoryAt : fs.DirectoryAt directory
  absent : fs.entryAt? (name :: directory) = none
  isName : Path.IsName name
  short : ¬ nameLimit < name.byteCount
  eq_put : fs' = fs.put (name :: directory) (.file content)

/-- Whether a path leads to a name in a directory, with these segments after it. -/
def Passes (fs : FileSystem) (directory : Place) (name : RawText) (path : Path)
    (rest : List RawText) : Prop :=
  ∃ front, path.segments = front ++ name :: rest ∧
    fs.Follows (start path fs.working) (front.filterMap component?) directory

namespace Adds

variable {fs fs' : FileSystem} {directory : Place} {name content : RawText}

theorem gains (h : Adds fs fs' directory name content) : fs.Gains fs' directory name content := by
  rw [h.eq_put]
  exact gains_put h.directoryAt h.absent content

theorem working_eq (h : Adds fs fs' directory name content) : fs'.working = fs.working :=
  h.gains.working_eq

/-- Only the place of the file is new. -/
theorem atAdded (h : Adds fs fs' directory name content) (place : Place) :
    AtAdded name (.file content) (place = name :: directory) (fs.entryAt? place)
      (fs'.entryAt? place) :=
  h.gains.atAdded place

/-- There is no link in the second either. -/
theorem linkFree' (h : Adds fs fs' directory name content) : fs'.LinkFree :=
  h.gains.grows.linkFree (.file content) h.linkFree

theorem exists_grows (h : Adds fs fs' directory name content) {place : Place} {entry : Entry}
    (hentry : fs.entryAt? place = some entry) :
    ∃ entry', fs'.entryAt? place = some entry' ∧ Grows name (.file content) entry entry' :=
  h.gains.retains place entry hentry

theorem eq_none_or (h : Adds fs fs' directory name content) {place : Place}
    (hnone : fs.entryAt? place = none) :
    fs'.entryAt? place = none ∨
      place = name :: directory ∧ fs'.entryAt? place = some (.file content) := by
  have hplace := h.atAdded place
  rw [hnone] at hplace
  cases hentry' : fs'.entryAt? place with
  | none => exact .inl rfl
  | some entry' =>
    rw [hentry'] at hplace
    cases hplace with
    | added isNew => exact .inr ⟨isNew, rfl⟩

/-- An entry that is new where it is held is held by the directory of the file. -/
theorem place_eq_of_new (h : Adds fs fs' directory name content) {place : Place}
    {entry entry' inner : Entry} {key : RawText} (hentry : fs.entryAt? place = some entry)
    (hentry' : fs'.entryAt? place = some entry') (hnone : entry.at? [key] = none)
    (hinner : (key, inner) ∈ entry'.entries) : place = directory := by
  have hbefore : fs.entryAt? (key :: place) = none := by
    rw [entryAt?_cons, hentry, Option.bind_some, hnone]
  rcases h.eq_none_or hbefore with hafter | ⟨hnew, -⟩
  · rw [entryAt?_cons, hentry', Option.bind_some] at hafter
    exact absurd hinner (Entry.not_mem_of_at?_eq_none hafter inner)
  · exact (List.cons.inj hnew).2

/-- Directories are still directories. -/
theorem directoryAt' (h : Adds fs fs' directory name content) {place : Place}
    (hplace : fs.DirectoryAt place) : fs'.DirectoryAt place := by
  obtain ⟨entries, hentries⟩ := hplace
  obtain ⟨entry', hentry', hgrows⟩ := h.exists_grows hentries
  rcases hgrows.eq_or_directory with rfl | ⟨_, entries', -, rfl⟩
  · exact ⟨entries, hentry'⟩
  · exact ⟨entries', hentry'⟩

theorem follows (h : Adds fs fs' directory name content) {place found : Place}
    {steps : List Path.Component} (hfollows : fs.Follows place steps found) :
    fs'.Follows place steps found := by
  induction hfollows with
  | nil => exact .nil _
  | up _ ih => exact .up ih
  | name short held _ ih =>
    obtain ⟨entries, hentries⟩ := h.directoryAt' ⟨_, held⟩
    exact .name short hentries ih

/-- What is left of a path from a place. -/
inductive Alike (fs fs' : FileSystem) (name content : RawText) :
    Except FileError Target → Except FileError Target → Prop
  | error (e : FileError) : Alike fs fs' name content (.error e) (.error e)
  | absent (directory : Place) (last : RawText) :
      Alike fs fs' name content (.ok (.absent directory last)) (.ok (.absent directory last))
  | present {place : Place} {entry entry' : Entry} (held : fs.entryAt? place = some entry)
      (held' : fs'.entryAt? place = some entry') (grows : Grows name (.file content) entry entry') :
      Alike fs fs' name content (.ok (.present place entry)) (.ok (.present place entry'))

/-- A step leads on in both, or it is the name of the file in its directory, or what is left of the
path ends alike. -/
theorem step_cases (h : Adds fs fs' directory name content)
    (follow follow' : Place → List RawText → Except FileError Target) (place : Place)
    (step : RawText) (rest : List RawText) :
    (∃ next, fs.GoesOn place step next ∧ fs'.GoesOn place step next) ∨
      (step = name ∧ place = directory) ∨
      Alike fs fs' name content (fs.walkSteps .target follow place (step :: rest))
        (fs'.walkSteps .target follow' place (step :: rest)) := by
  cases hidle : Path.isIdle step with
  | true => exact .inl ⟨place, .idle hidle, .idle hidle⟩
  | false =>
    by_cases hup : step = Path.up
    · exact .inl ⟨place.tail, .up hidle hup, .up hidle hup⟩
    unfold walkSteps
    simp only [hidle, Bool.false_eq_true, if_false, if_neg hup, reduceCtorEq, false_and]
    by_cases hlong : nameLimit < step.byteCount
    · simp only [if_pos hlong]
      exact .inr (.inr (.error _))
    simp only [if_neg hlong]
    cases hentry : fs.entryAt? (step :: place) with
    | none =>
      rcases h.eq_none_or hentry with hentry' | ⟨hnew, -⟩
      · simp only [hentry']
        right; right
        cases rest with
        | nil => exact .absent _ _
        | cons => exact .error _
      · exact .inr (.inl (List.cons.inj hnew))
    | some entry =>
      obtain ⟨entry', hentry', hgrows⟩ := h.exists_grows hentry
      cases entry with
      | link target => exact absurd hentry (h.linkFree.entryAt?_ne_link _ target)
      | directory entries =>
        obtain ⟨entries', hentries'⟩ := h.directoryAt' ⟨entries, hentry⟩
        exact .inl ⟨step :: place, .down hidle hup hlong hentry, .down hidle hup hlong hentries'⟩
      | file held =>
        -- a file does not grow
        obtain rfl := hgrows.eq_or_directory.resolve_right nofun
        simp only [hentry']
        right; right
        cases rest with
        | nil => exact .present hentry hentry' hgrows
        | cons => exact .error _

/-- A path leads on as before, unless it passes the place of the file. -/
theorem walkSteps_cases (h : Adds fs fs' directory name content)
    (follow follow' : Place → List RawText → Except FileError Target) {place : Place}
    (hplace : fs.DirectoryAt place) (segments : List RawText) :
    (∃ front rest, segments = front ++ name :: rest ∧
        fs.Follows place (front.filterMap component?) directory) ∨
      Alike fs fs' name content (fs.walkSteps .target follow place segments)
        (fs'.walkSteps .target follow' place segments) := by
  have htarget : Purpose.target ≠ .writing := nofun
  induction segments generalizing place with
  | nil =>
    obtain ⟨entries, hentries⟩ := hplace
    obtain ⟨entry', hentry', hgrows⟩ := h.exists_grows hentries
    rw [walkSteps, walkSteps, hentries, hentry']
    exact .inr (.present hentries hentry' hgrows)
  | cons step rest ih =>
    rcases h.step_cases follow follow' place step rest with
      ⟨next, hnext, hnext'⟩ | ⟨rfl, rfl⟩ | halike
    · rw [hnext.walkSteps_eq htarget, hnext'.walkSteps_eq htarget]
      refine (ih (hnext.directoryAt hplace)).imp_left ?_
      rintro ⟨front, more, rfl, hfollows⟩
      exact ⟨step :: front, more, rfl, .of_goesOn hnext hfollows⟩
    · exact .inl ⟨[], rest, rfl, .nil _⟩
    · exact .inr halike

theorem held' (h : Adds fs fs' directory name content) :
    fs'.entryAt? (name :: directory) = some (.file content) :=
  h.gains.held

/-- At the place of the file, nothing was and the file is. -/
theorem walkSteps_name (h : Adds fs fs' directory name content)
    (follow follow' : Place → List RawText → Except FileError Target) (rest : List RawText) :
    fs.walkSteps .target follow directory (name :: rest) =
        (if rest = [] then .ok (.absent directory name) else .error .notFound) ∧
      fs'.walkSteps .target follow' directory (name :: rest) =
        if rest = [] then .ok (.present (name :: directory) (.file content))
        else .error .notDirectory := by
  unfold walkSteps
  simp only [h.isName.isStep, Bool.false_eq_true, if_false, if_neg h.isName.ne_up, reduceCtorEq,
    false_and, if_neg h.short, h.absent, h.held']
  cases rest <;> exact ⟨rfl, rfl⟩

/-- A path that passes the place of the file ended there. Now it leads to the file, or fails at it.
-/
theorem followSteps_of_passes (h : Adds fs fs' directory name content) {path : Path}
    {rest : List RawText} (hpasses : fs.Passes directory name path rest) :
    fs.followSteps .target linkLimit (start path fs.working) path.segments =
        (if rest = [] then .ok (.absent directory name) else .error .notFound) ∧
      fs'.followSteps .target linkLimit (start path fs'.working) path.segments =
        if rest = [] then .ok (.present (name :: directory) (.file content))
        else .error .notDirectory := by
  obtain ⟨front, hsegments, hfollows⟩ := hpasses
  obtain ⟨follow, hfollow⟩ := fs.exists_followSteps_eq .target
  obtain ⟨follow', hfollow'⟩ := fs'.exists_followSteps_eq .target
  have htarget : Purpose.target ≠ .writing := nofun
  rw [hfollow, hfollow', h.working_eq, hsegments, hfollows.walkSteps_append htarget,
    (h.follows hfollows).walkSteps_append htarget]
  exact h.walkSteps_name follow follow' rest

theorem resolve_cases (h : Adds fs fs' directory name content) (path : Path) :
    (∃ rest, fs.Passes directory name path rest ∧
        fs.resolve .target path =
          (if rest = [] then .ok (.absent directory name) else .error .notFound) ∧
        fs'.resolve .target path =
          if rest = [] then .ok (.present (name :: directory) (.file content))
          else .error .notDirectory) ∨
      Alike fs fs' name content (fs.resolve .target path) (fs'.resolve .target path) := by
  rcases resolve_refused_or path with ⟨e, hrefused⟩ | hfollowed
  · rw [hrefused, hrefused]
    exact .inr (.error e)
  · obtain ⟨follow, hfollow⟩ := fs.exists_followSteps_eq .target
    obtain ⟨follow', hfollow'⟩ := fs'.exists_followSteps_eq .target
    rw [hfollowed, hfollowed]
    rcases h.walkSteps_cases follow follow' (h.working.start path) path.segments with
      ⟨front, rest, hsegments, hfollows⟩ | halike
    · have hpasses : fs.Passes directory name path rest := ⟨front, hsegments, hfollows⟩
      exact .inl ⟨rest, hpasses, h.followSteps_of_passes hpasses⟩
    · rw [hfollow, hfollow', h.working_eq]
      exact .inr halike

/-- What a path leads to in both file systems. -/
inductive EntryCases (fs fs' : FileSystem) (directory : Place) (name content : RawText)
    (path : Path) : Prop
  | error {e : FileError} (failed : fs.entry path = .error e) (failed' : fs'.entry path = .error e)
  | grows {place : Place} {entry entry' : Entry} (found : fs.placeOf? path = some place)
      (leads : fs.entry path = .ok entry) (leads' : fs'.entry path = .ok entry')
      (held : fs.entryAt? place = some entry) (held' : fs'.entryAt? place = some entry')
      (grows : Grows name (.file content) entry entry')
  | new (passes : fs.Passes directory name path []) (failed : fs.entry path = .error .notFound)
      (leads' : fs'.entry path = .ok (.file content))
  | behind {rest : List RawText} (rest_ne_nil : rest ≠ [])
      (passes : fs.Passes directory name path rest) (failed : fs.entry path = .error .notFound)
      (failed' : fs'.entry path = .error .notDirectory)

theorem entry_cases (h : Adds fs fs' directory name content) (path : Path) :
    EntryCases fs fs' directory name content path := by
  have hentry : ∀ {files : FileSystem} {ends : Except FileError Target},
      files.resolve .target path = ends → files.entry path = entryOf ends := by
    intro files ends hends
    rw [entry_eq_entryOf, hends]
  rcases h.resolve_cases path with ⟨rest, hpasses, hresolve, hresolve'⟩ | halike
  · by_cases hrest : rest = []
    · rw [if_pos hrest] at hresolve hresolve'
      exact .new (hrest ▸ hpasses) (hentry hresolve) (hentry hresolve')
    · rw [if_neg hrest] at hresolve hresolve'
      exact .behind hrest hpasses (hentry hresolve) (hentry hresolve')
  · generalize hends : fs.resolve .target path = ends at halike
    generalize hends' : fs'.resolve .target path = ends' at halike
    cases halike with
    | error e => exact .error (hentry hends) (hentry hends')
    | absent => exact .error (hentry hends) (hentry hends')
    | present held held' grows =>
      exact .grows (by rw [placeOf?, hends]) (hentry hends) (hentry hends') held held' grows

/-! ## What can be asked of paths -/

/-- The file is no directory. -/
theorem isDirectory_eq (h : Adds fs fs' directory name content) (path : Path) :
    fs'.isDirectory path = fs.isDirectory path := by
  rw [isDirectory, isDirectory]
  cases h.entry_cases path with
  | error failed failed' => rw [failed, failed']
  | grows _ leads leads' _ _ grows => rw [leads, leads']; exact grows.isDirectory_eq
  | new _ failed leads' => rw [failed, leads']; rfl
  | behind _ _ failed failed' => rw [failed, failed']

theorem exists_of_exists (h : Adds fs fs' directory name content) {path : Path}
    (hexists : fs.exists path = true) : fs'.exists path = true := by
  obtain ⟨entry, hentry⟩ := exists_iff.mp hexists
  cases h.entry_cases path with
  | grows _ _ leads' => exact exists_iff.mpr ⟨_, leads'⟩
  | error failed => cases failed.symm.trans hentry
  | new _ failed => cases failed.symm.trans hentry
  | behind _ _ failed => cases failed.symm.trans hentry

/-- What exists existed before, or it is the file. -/
theorem of_exists (h : Adds fs fs' directory name content) {path : Path}
    (hexists : fs'.exists path = true) :
    fs.exists path = true ∨ fs.Passes directory name path [] := by
  obtain ⟨entry', hentry'⟩ := exists_iff.mp hexists
  cases h.entry_cases path with
  | grows _ leads => exact .inl (exists_iff.mpr ⟨_, leads⟩)
  | new passes => exact .inr passes
  | error _ failed' => cases failed'.symm.trans hentry'
  | behind _ _ _ failed' => cases failed'.symm.trans hentry'

/-- A path that passes the place of the file led nowhere. -/
theorem entry_of_passes (h : Adds fs fs' directory name content) {path : Path}
    {rest : List RawText} (hpasses : fs.Passes directory name path rest) (entry : Entry) :
    fs.entry path ≠ .ok entry := by
  intro hentry
  obtain ⟨-, -, -, place, hplace⟩ := entry_eq_ok_iff.mp hentry
  rw [(h.followSteps_of_passes hpasses).1] at hplace
  split at hplace <;> cases hplace

theorem isDirectory_of_passes (h : Adds fs fs' directory name content) {path : Path}
    {rest : List RawText} (hpasses : fs.Passes directory name path rest) :
    fs.isDirectory path = false := by
  rw [isDirectory]
  cases hentry : fs.entry path with
  | error e => rfl
  | ok entry => exact absurd hentry (h.entry_of_passes hpasses entry)

/-- A path to the place of the file leads to the file, if it can be followed. -/
theorem entry_of_passes_nil (h : Adds fs fs' directory name content) {path : Path}
    (hpasses : fs.Passes directory name path []) (hpath : isFollowable path = true) :
    fs'.entry path = .ok (.file content) := by
  obtain ⟨hnul, hne, hsize⟩ := isFollowable_iff.mp hpath
  refine entry_eq_ok_iff.mpr ⟨hnul, hne, hsize, name :: directory, ?_⟩
  rw [(h.followSteps_of_passes hpasses).2, if_pos rfl]

/-- A path that goes on behind the file leads nowhere. -/
theorem entry_of_passes' (h : Adds fs fs' directory name content) {path : Path}
    {rest : List RawText} (hpasses : fs.Passes directory name path rest) (hrest : rest ≠ [])
    (entry : Entry) : fs'.entry path ≠ .ok entry := by
  intro hentry
  obtain ⟨-, -, -, place, hplace⟩ := entry_eq_ok_iff.mp hentry
  rw [(h.followSteps_of_passes hpasses).2, if_neg hrest] at hplace
  cases hplace

/-- Nothing is behind the file. -/
theorem not_exists_join (h : Adds fs fs' directory name content) {path : Path}
    (hpasses : fs.Passes directory name path []) {step : RawText} (hsep : Path.separator ∉ step) :
    fs'.exists (path.join step) = false := by
  obtain ⟨front, hsegments, hfollows⟩ := hpasses
  have hrelative := Path.isAbsolute_of_not_mem hsep
  have hpieces : path.pieces = front ++ [name] := by
    rw [Path.pieces, hsegments, List.getLast?_concat, if_neg]
    rw [Option.some_inj]
    exact h.isName.ne_nil
  have hbehind : fs.Passes directory name (path.join step) [step] := by
    refine ⟨front, ?_, ?_⟩
    · rw [Path.segments_join path hrelative, hpieces, Path.segments_of_not_mem hsep,
        List.append_assoc, List.singleton_append]
    · rwa [start, Path.isAbsolute_join path hrelative]
  rw [← Bool.not_eq_true, exists_iff]
  rintro ⟨entry, hentry⟩
  exact h.entry_of_passes' hbehind (List.cons_ne_nil step []) entry hentry

theorem isFile_eq (h : Adds fs fs' directory name content) {path : Path}
    (hname : path.fileName? ≠ some name) : fs'.isFile path = fs.isFile path := by
  rw [isFile, isFile]
  cases h.entry_cases path with
  | error failed failed' => rw [failed, failed']
  | grows _ leads leads' _ _ grows => rw [leads, leads']; exact grows.isFile_eq
  | new passes =>
    obtain ⟨front, hsegments, -⟩ := passes
    exact absurd (Path.fileName?_of_segments h.isName hsegments) hname
  | behind _ _ failed failed' => rw [failed, failed']

end Adds

end FileSystem

end MessageHarvest
