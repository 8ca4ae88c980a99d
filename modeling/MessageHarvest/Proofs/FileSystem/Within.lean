import MessageHarvest.Proofs.FileSystem.Steps

/-!
# Within a directory

What a path leads to that goes on by names from a directory depends on that directory alone.

* `Path.Within`: whether a path goes on by names from another one.
* `FileSystem.LinkFree.entry_eq_of_below`: two directories that hold the same give the same ways
  down.
* `FileSystem.Shares`: two file systems with one directory in common. `FileSystem.Shares.entry_eq`:
  within that directory they are the same.
-/

namespace MessageHarvest

namespace Path

/-- Whether a path goes on by names from where another one leads. -/
structure Within (base path : Path) : Prop where
  isAbsolute : path.isAbsolute = base.isAbsolute
  exists_names : ∃ names : List RawText, path.steps = base.steps ++ names.map Component.name

/-- Steps that do not lead up are names. -/
theorem exists_names_of_up_not_mem {path : Path} (h : .up ∉ path.steps) :
    ∃ names : List RawText, path.steps = names.map Component.name := by
  refine ⟨path.steps.map Component.segment, ?_⟩
  rw [List.map_map]
  conv => lhs; rw [← List.map_id path.steps]
  refine List.map_congr_left fun step hstep => ?_
  obtain ⟨segment, -, hsegment⟩ := List.mem_filterMap.mp hstep
  obtain ⟨hhere, hroot⟩ := component?_ne_here hsegment
  cases step with
  | root => exact absurd rfl hroot
  | here => exact absurd rfl hhere
  | up => exact absurd hstep h
  | name name => rfl

namespace Within

variable {base path rest : Path}

theorem refl (base : Path) : Within base base :=
  ⟨rfl, [], (List.append_nil _).symm⟩

theorem of_append (h : Within base path) (hrest : .up ∉ rest.steps) {longer : Path}
    (habs : longer.isAbsolute = path.isAbsolute)
    (hsteps : longer.steps = path.steps ++ rest.steps) :
    Within base longer := by
  obtain ⟨names, hnames⟩ := h.exists_names
  obtain ⟨more, hmore⟩ := exists_names_of_up_not_mem hrest
  refine ⟨habs.trans h.isAbsolute, names ++ more, ?_⟩
  rw [hsteps, hnames, hmore, List.map_append, List.append_assoc]

theorem join (h : Within base path) (hrelative : rest.isAbsolute = false)
    (hrest : .up ∉ rest.steps) : Within base (path.join rest) :=
  h.of_append hrest (isAbsolute_join path hrelative) (steps_join path hrelative)

theorem extend (h : Within base path) {names : List RawText}
    (hnames : ∀ name ∈ names, IsName name) : Within base (path.extend names) := by
  refine extend_keeps (fun _ name hpath hname => hpath.join hname.isAbsolute ?_) h hnames
  rw [steps, hname.pieces, List.filterMap_cons_some (component?_of_ne_up hname.isStep hname.ne_up)]
  simp

end Within

end Path

namespace FileSystem

open MessageHarvest.Path (Component component? component?_of_isIdle component?_up
  component?_of_ne_up Within)

variable {fs fs' : FileSystem} {follow : Place → List RawText → Except FileError Target}
  {place found : Place}

/-! ## Ways down -/

/-- Two directories that hold the same give the same ways down. -/
theorem LinkFree.entryOf_walkSteps_eq (hlinks : fs.LinkFree)
    {follow' : Place → List RawText → Except FileError Target} {place' : Place}
    (hsame : fs.entryAt? place = fs'.entryAt? place') {segments : List RawText}
    (hdown : .up ∉ segments.filterMap component?) :
    entryOf (fs.walkSteps .target follow place segments) =
      entryOf (fs'.walkSteps .target follow' place' segments) := by
  induction segments generalizing place place' with
  | nil =>
    rw [walkSteps, walkSteps, ← hsame]
    cases fs.entryAt? place <;> rfl
  | cons step rest ih =>
    have hnext : fs.entryAt? (step :: place) = fs'.entryAt? (step :: place') := by
      rw [entryAt?_cons, entryAt?_cons, hsame]
    have hrest : .up ∉ rest.filterMap component? := fun hmem =>
      hdown ((List.sublist_cons_self step rest).filterMap component? |>.subset hmem)
    unfold walkSteps
    cases hidle : Path.isIdle step with
    | true => exact ih hsame hrest
    | false =>
      have hup : step ≠ Path.up := by
        intro hup
        rw [hup, List.filterMap_cons_some component?_up] at hdown
        exact hdown List.mem_cons_self
      simp only [Bool.false_eq_true, if_false, if_neg hup, reduceCtorEq, false_and]
      split
      · rfl
      rw [← hnext]
      cases hentry : fs.entryAt? (step :: place) with
      | none => cases rest <;> rfl
      | some entry =>
        cases entry with
        | file => cases rest <;> rfl
        | directory => exact ih hnext hrest
        | link target => exact absurd hentry (hlinks.entryAt?_ne_link _ _)

/-- What a path leads to whose steps go on downwards from those to a directory depends on that
directory alone. -/
theorem LinkFree.entry_eq_of_below (hlinks : fs.LinkFree) {steps more : List Component}
    {found found' : Place} (h : fs.Follows fs.working steps found)
    (h' : fs'.Follows fs'.working steps found') (hsame : fs.entryAt? found = fs'.entryAt? found')
    {path : Path} (hrelative : path.isAbsolute = false) (hsteps : path.steps = steps ++ more)
    (hdown : .up ∉ more) : fs.entry path = fs'.entry path := by
  obtain ⟨front, rest, hsegments, hfront, hrest⟩ :
      ∃ front rest, path.segments = front ++ rest ∧ front.filterMap component? = steps ∧
        rest.filterMap component? = more := by
    rw [← Path.filterMap_segments] at hsteps
    exact List.filterMap_eq_append_iff.mp hsteps
  rw [← hfront] at h h'
  rw [← hrest] at hdown
  rw [entry_eq_entryOf, entry_eq_entryOf, resolve, resolve]
  split
  · rfl
  split
  · rfl
  split
  · rfl
  obtain ⟨follow, hfollow⟩ := fs.exists_followSteps_eq .target
  obtain ⟨follow', hfollow'⟩ := fs'.exists_followSteps_eq .target
  have htarget : Purpose.target ≠ .writing := by decide
  rw [start_of_relative hrelative, start_of_relative hrelative, hfollow, hfollow', hsegments,
    h.walkSteps_append htarget, h'.walkSteps_append htarget]
  exact hlinks.entryOf_walkSteps_eq hsame hdown

/-! ## One directory in common -/

/-- Two file systems without links in which a relative path leads to the same directory. -/
structure Shares (fs fs' : FileSystem) (base : Path) : Prop where
  wellFormed : fs.WellFormed
  wellFormed' : fs'.WellFormed
  linkFree : fs.LinkFree
  linkFree' : fs'.LinkFree
  relative : base.isAbsolute = false
  directory : fs.isDirectory base = true
  same : fs'.entry base = fs.entry base

namespace Shares

variable {base path : Path}

theorem refl (hfs : fs.WellFormed) (hlinks : fs.LinkFree) (hrelative : base.isAbsolute = false)
    (hdirectory : fs.isDirectory base = true) : Shares fs fs base :=
  ⟨hfs, hfs, hlinks, hlinks, hrelative, hdirectory, rfl⟩

theorem exists_follows (h : Shares fs fs' base) : ∃ place place' entries,
    fs.Follows fs.working base.steps place ∧ fs'.Follows fs'.working base.steps place' ∧
      fs.entryAt? place = some (.directory entries) ∧
      fs'.entryAt? place' = some (.directory entries) := by
  obtain ⟨entries, hentries⟩ := entry_of_isDirectory h.directory
  obtain ⟨place, -, hfollows, hplace⟩ := h.linkFree.follows_of_entry hentries
  obtain ⟨place', -, hfollows', hplace'⟩ := h.linkFree'.follows_of_entry (h.same.trans hentries)
  rw [start_of_relative h.relative] at hfollows hfollows'
  exact ⟨place, place', entries, hfollows, hfollows', hplace, hplace'⟩

/-- Within the directory the file systems are the same. -/
theorem entry_eq (h : Shares fs fs' base) (hpath : Within base path) :
    fs'.entry path = fs.entry path := by
  obtain ⟨place, place', entries, hfollows, hfollows', hplace, hplace'⟩ := h.exists_follows
  obtain ⟨names, hnames⟩ := hpath.exists_names
  exact (h.linkFree.entry_eq_of_below hfollows hfollows' (hplace.trans hplace'.symm)
    (hpath.isAbsolute.trans h.relative) hnames (by simp)).symm

/-- On the way to the directory there are directories in both. -/
theorem isDirectory_eq (h : Shares fs fs' base) (hrelative : path.isAbsolute = false)
    (hsteps : path.steps <+: base.steps) :
    fs'.isDirectory path = fs.isDirectory path ∧ fs'.exists path = fs.exists path := by
  obtain ⟨place, place', -, hfollows, hfollows', -⟩ := h.exists_follows
  obtain ⟨rest, hrest⟩ := hsteps
  rw [← hrest] at hfollows hfollows'
  obtain ⟨middle, hfirst, -⟩ := hfollows.of_append
  obtain ⟨middle', hfirst', -⟩ := hfollows'.of_append
  obtain ⟨hdirectory, hexists⟩ := hfirst.isDirectory_eq hrelative h.wellFormed.working
  obtain ⟨hdirectory', hexists'⟩ := hfirst'.isDirectory_eq hrelative h.wellFormed'.working
  exact ⟨hdirectory'.trans hdirectory.symm, hexists'.trans hexists.symm⟩

end Shares

end FileSystem

end MessageHarvest
