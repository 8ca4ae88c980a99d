import MessageHarvest.Proofs.FileSystem.Steps
import MessageHarvest.Proofs.Project.Setup
import Mathlib.Data.List.Infix

/-!
# Looking upward for a configuration

The search for a configuration file takes the steps of a path away one by one. It looks into the
directories that the path leads through, which need not be those above the directory that it leads
to: the path `a/../b` leads through `a`.

* `Project.Sought.findConfigWithin_trail`: where a search looks, and what it finds.
* `Project.find?_trail_eq`: what a path leads through and leaves again does not count if no search
  ends there.
* `Project.findConfig_nearest`: when the file of the nearest directory is found, up to that of the
  project.
* `Project.config_of_neighbour_found`: the file of a directory that is not above is found.
-/

namespace MessageHarvest

open MessageHarvest.Path (Component)

namespace FileSystem

/-! ## Ways and directories above -/

/-- The places to which steps lead one after the other, the last of them first. -/
def trail (place : Place) (steps : List Component) : List Place :=
  (steps.inits.map (reached place)).reverse

/-- A place and those above it, up to that of the project. -/
def enclosing (project place : Place) : List Place :=
  place.tails.filter fun above => project.isSuffixOf above

variable {project place : Place} {steps : List Component}

theorem trail_nil (place : Place) : trail place [] = [place] := rfl

theorem trail_concat (place : Place) (steps : List Component) (last : Component) :
    trail place (steps ++ [last]) = reached place (steps ++ [last]) :: trail place steps := by
  simp [trail, List.inits_append]

theorem exists_trail_eq (place : Place) (steps : List Component) :
    ∃ before, trail place steps = reached place steps :: before := by
  cases steps using List.reverseRecOn with
  | nil => exact ⟨[], rfl⟩
  | append_singleton steps last => exact ⟨_, trail_concat place steps last⟩

theorem mem_enclosing {above : Place} :
    above ∈ enclosing project place ↔ above <:+ place ∧ project <:+ above := by
  rw [enclosing, List.mem_filter, List.mem_tails, List.isSuffixOf_iff_suffix]

theorem enclosing_cons (name : RawText) (h : project <:+ place) :
    enclosing project (name :: place) = (name :: place) :: enclosing project place := by
  have hmore : project.isSuffixOf (name :: place) = true :=
    List.isSuffixOf_iff_suffix.mpr (h.trans (List.suffix_cons name place))
  rw [enclosing, List.tails_cons, List.filter_cons_of_pos hmore, enclosing]

theorem enclosing_self (project : Place) : enclosing project project = [project] := by
  have hself : project.isSuffixOf project = true := List.isSuffixOf_iff_suffix.mpr List.suffix_rfl
  cases project with
  | nil => rfl
  | cons name above =>
    rw [enclosing, List.tails_cons, List.filter_cons_of_pos hself, List.filter_eq_nil_iff.mpr]
    intro other hother hsuffix
    have hlength := (List.isSuffixOf_iff_suffix.mp hsuffix).length_le
    have hshorter := ((List.mem_tails other above).mp hother).length_le
    rw [List.length_cons] at hlength
    omega

theorem exists_enclosing_eq (h : project <:+ place) :
    ∃ above, enclosing project place = place :: above := by
  cases place with
  | nil =>
    obtain rfl := List.suffix_nil.mp h
    exact ⟨[], rfl⟩
  | cons name place =>
    have hself : project.isSuffixOf (name :: place) = true := List.isSuffixOf_iff_suffix.mpr h
    exact ⟨_, by rw [enclosing, List.tails_cons, List.filter_cons_of_pos hself]⟩

end FileSystem

namespace Project

open FileSystem (trail enclosing reached stepFrom mem_enclosing)

variable {fs : FileSystem} {path : Path}

/-! ## The nearest configuration file -/

/-- Whether a search ends in a directory: it has a configuration file, or it is the top of a
project. -/
def endsSearch (fs : FileSystem) (directory : Place) : Bool :=
  (fs.entryAt? (configName :: directory)).isSome || (fs.entryAt? (boundary :: directory)).isSome

/-- The configuration file of the first of these directories that has one, if none before it is the
top of a project. -/
def nearestConfig? (fs : FileSystem) (directories : List Place) : Option Place :=
  (directories.find? (endsSearch fs)).bind fun directory =>
    (fs.entryAt? (configName :: directory)).map fun _ => configName :: directory

/-- What comes first anyway may come first once more. -/
theorem find?_cons_of_mem {α : Type} {p : α → Bool} {a : α} {as bs : List α}
    (h : as.find? p = bs.find? p) (ha : ∃ more, bs = a :: more) :
    (a :: as).find? p = bs.find? p := by
  obtain ⟨more, rfl⟩ := ha
  cases hp : p a with
  | true => rw [List.find?_cons_of_pos hp, List.find?_cons_of_pos hp]
  | false => rw [List.find?_cons_of_neg (by simp [hp]), h]

/-- A step stays, or leads down, or leads up. -/
theorem stepFrom_cases (place : Place) (step : Component) :
    stepFrom place step = place ∨ (∃ name, stepFrom place step = name :: place) ∨
      ∃ name, place = name :: stepFrom place step := by
  cases step with
  | root | here => exact .inl rfl
  | name name => exact .inr (.inl ⟨name, rfl⟩)
  | up =>
    cases place with
    | nil => exact .inl rfl
    | cons name place => exact .inr (.inr ⟨name, rfl⟩)

/-- On a way that stays in the project, the directories that are not above its end can be left out
if no search ends there. -/
theorem find?_trail_eq {p : Place → Bool} {project : Place} {steps : List Component}
    (hinside : ∀ place ∈ trail project steps, project <:+ place)
    (hplain : ∀ place ∈ trail project steps, p place = true →
      place ∈ enclosing project (reached project steps)) :
    (trail project steps).find? p = (enclosing project (reached project steps)).find? p := by
  induction steps using List.reverseRecOn with
  | nil => rw [FileSystem.trail_nil, reached, List.foldl_nil, FileSystem.enclosing_self]
  | append_singleton steps last ih =>
    obtain ⟨before, hbefore⟩ := FileSystem.exists_trail_eq project steps
    rw [FileSystem.trail_concat, FileSystem.reached_concat] at hinside hplain ⊢
    obtain ⟨hend, hinside⟩ := List.forall_mem_cons.mp hinside
    obtain ⟨-, hplain⟩ := List.forall_mem_cons.mp hplain
    have hmem : reached project steps ∈ trail project steps := hbefore ▸ List.mem_cons_self
    rcases stepFrom_cases (reached project steps) last with hstay | ⟨name, hdown⟩ | ⟨name, hup⟩
    · rw [hstay] at hend hplain ⊢
      exact find?_cons_of_mem (ih hinside hplain) (FileSystem.exists_enclosing_eq hend)
    · rw [hdown, FileSystem.enclosing_cons name (hinside _ hmem)] at hplain ⊢
      cases hp : p (name :: reached project steps) with
      | true => rw [List.find?_cons_of_pos hp, List.find?_cons_of_pos hp]
      | false =>
        have hrest : ∀ place ∈ trail project steps, p place = true →
            place ∈ enclosing project (reached project steps) := by
          intro place hplace hends
          refine (List.mem_cons.mp (hplain place hplace hends)).resolve_left fun heq => ?_
          rw [heq, hp] at hends
          cases hends
        have hneg : ¬ p (name :: reached project steps) = true := by simp [hp]
        rw [List.find?_cons_of_neg hneg, List.find?_cons_of_neg hneg, ih hinside hrest]
    · -- the directory that the step leaves is on the way and not above the end
      generalize stepFrom (reached project steps) last = next at hup hend hplain ⊢
      have hleft : ¬ p (reached project steps) = true := by
        intro hends
        have hlength := (mem_enclosing.mp (hplain _ hmem hends)).1.length_le
        rw [hup, List.length_cons] at hlength
        omega
      have hall := FileSystem.enclosing_cons name hend
      rw [← hup] at hall
      have hrest : ∀ place ∈ trail project steps, p place = true →
          place ∈ enclosing project (reached project steps) := by
        intro place hplace hends
        rw [hall]
        exact List.mem_cons_of_mem _ (hplain place hplace hends)
      have hmore := ih hinside hrest
      rw [hall, List.find?_cons_of_neg hleft] at hmore
      exact find?_cons_of_mem hmore (FileSystem.exists_enclosing_eq hend)

/-- A way that never leads up leads through directories above its end only. -/
theorem mem_enclosing_of_mem_trail {project place : Place} {steps : List Component}
    (hdown : .up ∉ steps) (h : place ∈ trail project steps) :
    place ∈ enclosing project (reached project steps) := by
  induction steps using List.reverseRecOn generalizing place with
  | nil =>
    rw [List.mem_singleton.mp h]
    exact mem_enclosing.mpr ⟨List.suffix_rfl, List.suffix_rfl⟩
  | append_singleton steps last ih =>
    obtain ⟨hsteps, hlast⟩ := not_or.mp (List.mem_append.not.mp hdown)
    obtain ⟨before, hbefore⟩ := FileSystem.exists_trail_eq project steps
    have hend := ih hsteps (hbefore ▸ List.mem_cons_self)
    rw [FileSystem.trail_concat, List.mem_cons] at h
    have hnext : reached project steps <:+ reached project (steps ++ [last]) := by
      rw [FileSystem.reached_concat]
      cases last with
      | root | here => exact List.suffix_rfl
      | name name => exact List.suffix_cons name _
      | up => exact absurd (List.mem_singleton_self _) hlast
    rcases h with rfl | h
    · exact mem_enclosing.mpr ⟨List.suffix_rfl, (mem_enclosing.mp hend).2.trans hnext⟩
    · obtain ⟨habove, hinside⟩ := mem_enclosing.mp (ih hsteps h)
      exact mem_enclosing.mpr ⟨habove.trans hnext, hinside⟩

/-! ## Where a search looks -/

/-- A path that leads from directory to directory, with room for the name of a file behind it. -/
structure Sought (fs : FileSystem) (path : Path) (place : Place) : Prop where
  relative : path.isAbsolute = false
  follows : fs.Follows fs.working path.steps place
  noNul : .char '\x00' ∉ path
  room : path.byteCount + configName.byteCount + 1 < Path.sizeLimit

namespace Sought

variable {place : Place}

theorem placeOf?_join (h : Sought fs path place) (hlinks : fs.LinkFree) {name : RawText}
    (hname : Path.IsName name) (hsize : name.byteCount ≤ configName.byteCount)
    (hnul : .char '\x00' ∉ name) :
    fs.placeOf? (path.join name) = (fs.entryAt? (name :: place)).map fun _ => name :: place := by
  have hlimit : configName.byteCount ≤ FileSystem.nameLimit := by decide
  have hjoin : path.join name = path ++ name ∨ path.join name = path ++ Path.separator :: name := by
    rw [Path.join, if_neg (by simp [hname.isAbsolute])]
    split
    · exact .inl rfl
    · exact .inr rfl
  have hseparator : Path.separator ≠ .char '\x00' := by decide
  refine hlinks.placeOf?_join h.relative h.follows hname (by omega) ?_ ?_
  · rw [← Bool.not_eq_true, List.contains_iff_mem]
    rcases hjoin with heq | heq <;> rw [heq] <;> simp [h.noNul, hnul, hseparator.symm]
  · have hroom := h.room
    have hone : RawText.byteCount [Path.separator] = 1 := by decide
    rw [Path.isTooLong, decide_eq_false_iff_not]
    rcases hjoin with heq | heq
    · rw [heq, RawText.byteCount_append]
      omega
    · rw [heq, ← List.singleton_append, RawText.byteCount_append, RawText.byteCount_append, hone]
      omega

theorem placeOf?_config (h : Sought fs path place) (hlinks : fs.LinkFree) :
    fs.placeOf? (path.join configName) =
      (fs.entryAt? (configName :: place)).map fun _ => configName :: place :=
  h.placeOf?_join hlinks (by decide) (Nat.le_refl _) (by decide)

theorem exists_boundary (h : Sought fs path place) (hlinks : fs.LinkFree) :
    fs.exists (path.join boundary) = (fs.entryAt? (boundary :: place)).isSome := by
  rw [FileSystem.exists_eq_isSome_placeOf?,
    h.placeOf?_join hlinks (by decide) (by decide) (by decide),
    Option.isSome_map]

/-- The parent of a path leads along the same way, but for its end. -/
theorem parent (h : Sought fs path place) {parent : Path} (hparent : path.parent? = some parent) :
    (∃ above, Sought fs parent above) ∧
      (trail fs.working path.steps = trail fs.working parent.steps ∨
        trail fs.working path.steps = place :: trail fs.working parent.steps) := by
  obtain ⟨rest, hrest⟩ := Path.prefix_of_parent? hparent
  obtain ⟨hrelative, hsteps⟩ := Path.steps_of_parent? h.relative hparent
  have hsize : RawText.byteCount parent ≤ RawText.byteCount path := by
    rw [← hrest, RawText.byteCount_append]
    omega
  have hsought : ∀ {above}, fs.Follows fs.working parent.steps above → Sought fs parent above :=
    fun hfollows => ⟨hrelative, hfollows,
      fun hnul => h.noNul (hrest ▸ List.mem_append_left rest hnul), by have := h.room; omega⟩
  have hfollows := h.follows
  rcases hsteps with heq | ⟨last, heq⟩
  · exact ⟨⟨place, hsought (heq ▸ hfollows)⟩, .inl (by rw [heq])⟩
  · rw [heq] at hfollows
    obtain ⟨above, habove, -⟩ := hfollows.of_append
    refine ⟨⟨above, hsought habove⟩, .inr ?_⟩
    rw [heq, FileSystem.trail_concat, hfollows.reached_eq]

/-- A search looks into the directories through which the path leads, the last one first. -/
theorem findConfigWithin_trail (h : Sought fs path place) (hlinks : fs.LinkFree) {levels : Nat}
    (hlevels : path.components.length < levels) :
    (findConfigWithin fs levels path).map fs.placeOf? =
      (nearestConfig? fs (trail fs.working path.steps)).map some := by
  induction levels generalizing path place with
  | zero => exact absurd hlevels (Nat.not_lt_zero _)
  | succ levels ih =>
    obtain ⟨before, htrail⟩ := FileSystem.exists_trail_eq fs.working path.steps
    rw [h.follows.reached_eq] at htrail
    have hconfig := h.placeOf?_config hlinks
    rw [findConfigWithin, h.exists_boundary hlinks, FileSystem.exists_eq_isSome_placeOf?, hconfig,
      Option.isSome_map]
    cases hfile : fs.entryAt? (configName :: place) with
    | some entry =>
      have hends : endsSearch fs place = true := by rw [endsSearch, hfile]; rfl
      rw [Option.isSome_some, if_pos rfl, Option.map_some, hconfig, nearestConfig?, htrail,
        List.find?_cons_of_pos hends, Option.bind_some, hfile]
      rfl
    | none =>
      rw [Option.isSome_none, if_neg Bool.false_ne_true]
      cases hboundary : fs.entryAt? (boundary :: place) with
      | some entry =>
        have hends : endsSearch fs place = true := by rw [endsSearch, hfile, hboundary]; rfl
        rw [Option.isSome_some, if_pos rfl, nearestConfig?, htrail, List.find?_cons_of_pos hends,
          Option.bind_some, hfile]
        rfl
      | none =>
        have hpasses : ¬ endsSearch fs place = true := by simp [endsSearch, hfile, hboundary]
        rw [Option.isSome_none, if_neg Bool.false_ne_true]
        cases hparent : path.parent? with
        | none =>
          rw [Path.steps_of_parent?_eq_none hparent, FileSystem.trail_nil] at htrail
          obtain ⟨rfl, rfl⟩ := List.cons.inj htrail
          rw [Path.steps_of_parent?_eq_none hparent, FileSystem.trail_nil, nearestConfig?,
            List.find?_cons_of_neg hpasses]
          rfl
        | some parent =>
          obtain ⟨last, hlast⟩ := Path.exists_of_parent? hparent
          rw [hlast, List.length_append, List.length_singleton] at hlevels
          obtain ⟨⟨above, habove⟩, hway⟩ := h.parent hparent
          rw [Option.bind_some, ih habove (Nat.lt_of_succ_lt_succ hlevels), nearestConfig?,
            nearestConfig?]
          rcases hway with heq | heq
          · rw [heq]
          · rw [heq, List.find?_cons_of_neg hpasses]

end Sought

/-! ## The configuration of a directory -/

/-- Without links, the search for a configuration file looks into the directories through which its
path leads, the last one first. If the path stays in the project and leaves only directories that
have no configuration file and are not the top of a project, it finds the file of the nearest
directory, up to that of the project. So it does if the path never leads up. -/
theorem findConfig_nearest (hlinks : fs.LinkFree) (hrelative : path.isAbsolute = false)
    (hdirectory : fs.isDirectory path = true)
    (hroom : path.byteCount + configName.byteCount + 1 < Path.sizeLimit) :
    ∃ place, fs.placeOf? path = some place ∧
      (findConfig fs path).map fs.placeOf? =
        (nearestConfig? fs (trail fs.working path.steps)).map some ∧
      ((∀ passed ∈ trail fs.working path.steps, fs.working <:+ passed) →
        (∀ passed ∈ trail fs.working path.steps, passed ∉ enclosing fs.working place →
          fs.entryAt? (configName :: passed) = none ∧ fs.entryAt? (boundary :: passed) = none) →
        (findConfig fs path).map fs.placeOf? =
          (nearestConfig? fs (enclosing fs.working place)).map some) ∧
      (.up ∉ path.steps →
        (findConfig fs path).map fs.placeOf? =
          (nearestConfig? fs (enclosing fs.working place)).map some) := by
  obtain ⟨entries, hentries⟩ := FileSystem.entry_of_isDirectory hdirectory
  obtain ⟨hnul, -⟩ := FileSystem.entry_eq_ok_iff.mp hentries
  obtain ⟨place, hplace, hfollows, -⟩ := hlinks.follows_of_entry hentries
  rw [FileSystem.start_of_relative hrelative] at hfollows
  rw [← Bool.not_eq_true, List.contains_iff_mem] at hnul
  have hsought : Sought fs path place := ⟨hrelative, hfollows, hnul, hroom⟩
  have hlaw := hsought.findConfigWithin_trail hlinks (Nat.lt_succ_of_le path.length_components_le)
  have hnearest : (∀ passed ∈ trail fs.working path.steps, fs.working <:+ passed) →
      (∀ passed ∈ trail fs.working path.steps, endsSearch fs passed = true →
        passed ∈ enclosing fs.working place) →
      (findConfig fs path).map fs.placeOf? =
        (nearestConfig? fs (enclosing fs.working place)).map some := by
    intro hinside hplain
    have hfind := find?_trail_eq hinside (hfollows.reached_eq ▸ hplain)
    rw [hfollows.reached_eq] at hfind
    rw [findConfig, hlaw, nearestConfig?, hfind, ← nearestConfig?]
  refine ⟨place, hplace, hlaw, fun hinside hplain => hnearest hinside ?_, fun hdown => ?_⟩
  · intro passed hpassed hends
    apply Classical.byContradiction
    intro hbeside
    obtain ⟨hconfig, hboundary⟩ := hplain passed hpassed hbeside
    simp [endsSearch, hconfig, hboundary] at hends
  · have hall : ∀ passed ∈ trail fs.working path.steps, passed ∈ enclosing fs.working place :=
      fun passed hpassed => hfollows.reached_eq ▸ mem_enclosing_of_mem_trail hdown hpassed
    exact hnearest (fun passed hpassed => (mem_enclosing.mp (hall passed hpassed)).2)
      fun passed hpassed _ => hall passed hpassed

/-- Two directories, of which one has a configuration file. -/
def neighbours : FileSystem where
  root := .directory [(.ofString "a", .directory [(configName, .file (.ofString "\x7b\x7d"))]),
    (.ofString "b", .directory [])]

theorem neighbours_linkFree : neighbours.LinkFree := by
  have hconfig : (Entry.directory [(configName, .file (.ofString "\x7b\x7d"))]).LinkFree :=
    .directory (by simpa using .file _)
  refine .directory ?_
  simp only [List.forall_mem_cons]
  exact ⟨hconfig, .directory nofun, nofun⟩

/-- On the way through the other directory the file is found. -/
theorem findConfig_neighbours :
    (findConfig neighbours (.ofString "b/../a")).map neighbours.placeOf? =
      some (some [configName, .ofString "a"]) := by
  obtain ⟨place, hplace, -, hnearest, -⟩ := @findConfig_nearest neighbours (.ofString "b/../a")
    neighbours_linkFree (by decide) (by decide) (by decide)
  have ha : neighbours.placeOf? (.ofString "b/../a") = some [.ofString "a"] := by decide
  obtain rfl : place = [.ofString "a"] := Option.some.inj (hplace.symm.trans ha)
  rw [hnearest (by decide) (by decide)]
  decide

/-- The file of `a` is found for `b`, where no configuration file is at or above. -/
theorem config_of_neighbour_found :
    neighbours.placeOf? (.ofString "a/../b") = some [.ofString "b"] ∧
      nearestConfig? neighbours (enclosing neighbours.working [.ofString "b"]) = none ∧
      findConfig neighbours (.ofString "a/../b") =
        some (Path.join (.ofString "a") configName) := by
  decide

end Project

end MessageHarvest
