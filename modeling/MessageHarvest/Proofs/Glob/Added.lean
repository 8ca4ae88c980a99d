import MessageHarvest.Proofs.FileSystem.Added
import MessageHarvest.Proofs.Glob.Spelling

/-!
# A file is added where patterns look

When a file is added, a pattern stands for what it stood for, and perhaps for the file. The file is
met where a listing ends: what comes after it in a pattern leads nowhere.

* `AtFile`: a spot at the new file.
* `mem_held_added`, `of_mem_held_added` and the like: what a directory holds, what lies below it and
  what a part matches in it, before and after.
* `mem_expanded_added`, `of_mem_expanded_added`: what a pattern stands for.
-/

namespace MessageHarvest

namespace Glob

open FileSystem (Adds)
open Entry (Grows)

variable {fs fs' : FileSystem} {directory : Place} {name content : RawText}

/-! ## One part at a time -/

/-- Where the first of the parts leads from a spot, and the parts that are left there. -/
inductive TakesTo (fs : FileSystem) : List Pattern → Spot → List Pattern → Spot → Prop
  | last {part : Pattern} {spot next : Spot} (recursive : part.isRecursive = true)
      (mem : next ∈ below fs Path.sizeLimit spot.path) (directory : next.isDirectory = true) :
      TakesTo fs [part] spot [] next
  | below {part q : Pattern} {rest : List Pattern} {spot next : Spot}
      (recursive : part.isRecursive = true) (mem : next ∈ below fs Path.sizeLimit spot.path)
      (ends : endsIn q next.path = true) : TakesTo fs (part :: q :: rest) spot rest next
  | literal {part : Pattern} {rest : List Pattern} {spot : Spot} {step : List Char}
      (not_recursive : part.isRecursive = false) (literal : part.literal? = some step)
      (can : canStep fs spot (inDirectory spot.path (step.map Glyph.char)) (step.map Glyph.char) =
        true) :
      TakesTo fs (part :: rest) spot rest (.ofPath fs (inDirectory spot.path (step.map Glyph.char)))
  | matching {part : Pattern} {rest : List Pattern} {spot next : Spot}
      (not_recursive : part.isRecursive = false) (not_literal : part.literal? = none)
      (mem : next ∈ matching fs part spot.path) : TakesTo fs (part :: rest) spot rest next

theorem TakesTo.suffix {part : Pattern} {parts rest : List Pattern} {spot next : Spot}
    (h : TakesTo fs (part :: parts) spot rest next) : rest <:+ parts := by
  cases h with
  | last | literal | matching => exact List.suffix_rfl
  | below => exact List.suffix_cons _ _

theorem mem_expandFrom_iff {directoriesOnly : Bool} {part : Pattern} {parts : List Pattern}
    {spot : Spot} {path : Path} :
    path ∈ expandFrom fs directoriesOnly (part :: parts) spot ↔
      ∃ rest next, TakesTo fs (part :: parts) spot rest next ∧
        path ∈ expandFrom fs directoriesOnly rest next := by
  constructor
  · intro hpath
    unfold expandFrom at hpath
    split at hpath
    · rename_i hrecursive
      cases parts with
      | nil =>
        obtain ⟨next, hnext, rfl⟩ := List.mem_map.mp hpath
        obtain ⟨hmem, hdirectory⟩ := List.mem_filter.mp hnext
        exact ⟨[], next, .last hrecursive hmem hdirectory, by simp [expandFrom, hdirectory]⟩
      | cons q parts =>
        obtain ⟨next, hnext, hmore⟩ := List.mem_flatMap.mp hpath
        obtain ⟨hmem, hends⟩ := List.mem_filter.mp hnext
        exact ⟨parts, next, .below hrecursive hmem hends, hmore⟩
    · rename_i hrecursive
      rw [Bool.not_eq_true] at hrecursive
      split at hpath
      · rename_i step hstep
        dsimp only at hpath
        split at hpath
        · rename_i hcan
          exact ⟨parts, _, .literal hrecursive hstep hcan, hpath⟩
        · cases hpath
      · rename_i hliteral
        obtain ⟨next, hnext, hmore⟩ := List.mem_flatMap.mp hpath
        exact ⟨parts, next, .matching hrecursive hliteral hnext, hmore⟩
  · rintro ⟨rest, next, htakes, hmore⟩
    unfold expandFrom
    cases htakes with
    | last recursive mem directory =>
      have heq : path = next.path := by simpa [expandFrom, directory] using hmore
      rw [if_pos recursive, heq]
      exact List.mem_map_of_mem (List.mem_filter.mpr ⟨mem, directory⟩)
    | below recursive mem ends =>
      rw [if_pos recursive]
      exact List.mem_flatMap.mpr ⟨next, List.mem_filter.mpr ⟨mem, ends⟩, hmore⟩
    | literal not_recursive literal can =>
      simpa only [not_recursive, Bool.false_eq_true, if_false, literal, can, if_true] using hmore
    | matching not_recursive not_literal mem =>
      simp only [not_recursive, Bool.false_eq_true, if_false, not_literal]
      exact List.mem_flatMap.mpr ⟨next, mem, hmore⟩

/-! ## The file -/

/-- A spot that leads to a name in a directory, which is no directory itself. -/
structure AtFile (fs : FileSystem) (directory : Place) (name : RawText) (spot : Spot) : Prop where
  passes : fs.Passes directory name spot.path []
  isDirectory : spot.isDirectory = false

section

variable (h : fs.Adds fs' directory name content)

include h

theorem ofPath_added (path : Path) : Spot.ofPath fs' path = Spot.ofPath fs path := by
  rw [Spot.ofPath, Spot.ofPath, h.isDirectory_eq]

theorem ofEntry_added (path : Path) {entry entry' : Entry}
    (hgrows : Grows name (.file content) entry entry') :
    Spot.ofEntry fs' path entry' = Spot.ofEntry fs path entry := by
  rcases hgrows.eq_or_directory with rfl | ⟨entries, entries', rfl, rfl⟩
  · cases entry' with
    | file | directory => rfl
    | link target => exact ofPath_added h path
  · rfl

/-! ## What is held, and what lies below -/

theorem mem_held_added {path : Path} {spot : Spot} (hspot : spot ∈ held fs path) :
    spot ∈ held fs' path := by
  obtain ⟨⟨key, entry⟩, hmem, rfl⟩ := List.mem_map.mp hspot
  rw [FileSystem.entries] at hmem
  cases h.entry_cases path with
  | error failed => rw [failed] at hmem; cases hmem
  | new _ failed => rw [failed] at hmem; cases hmem
  | behind _ _ failed => rw [failed] at hmem; cases hmem
  | grows _ leads leads' _ _ grows =>
    rw [leads] at hmem
    obtain ⟨inner', hinner', hgrows⟩ := grows.exists_of_mem hmem
    refine List.mem_map.mpr ⟨(key, inner'), ?_, ofEntry_added h _ hgrows⟩
    rw [FileSystem.entries, leads']
    exact hinner'

/-- The name of the file leads on from a path to its directory. -/
theorem passes_inDirectory {path : Path} {place : Place} (hplace : fs.placeOf? path = some place)
    {entries : List (RawText × Entry)} (hentry : fs.entry path = .ok (.directory entries)) :
    fs.Passes place name (inDirectory path name) [] := by
  obtain ⟨found, hfound, hfollows, -⟩ := h.linkFree.follows_of_entry hentry
  obtain rfl : found = place := Option.some.inj (hfound.symm.trans hplace)
  have hrelative := h.isName.isAbsolute
  have hsegments := Path.segments_of_not_mem h.isName.no_separator
  unfold inDirectory
  split
  · rename_i hhere
    obtain ⟨hpath, hsteps⟩ := Path.steps_of_components_here hhere
    rw [hsteps, FileSystem.start_of_relative hpath] at hfollows
    refine ⟨[], hsegments, ?_⟩
    rw [FileSystem.start_of_relative hrelative]
    exact hfollows
  · refine ⟨path.pieces, ?_, ?_⟩
    · rw [Path.segments_join path hrelative, hsegments]
    · rw [FileSystem.start, Path.isAbsolute_join path hrelative]
      exact hfollows

theorem of_mem_held_added {path : Path} {spot : Spot} (hspot : spot ∈ held fs' path) :
    spot ∈ held fs path ∨ AtFile fs directory name spot := by
  obtain ⟨⟨key, entry⟩, hmem, rfl⟩ := List.mem_map.mp hspot
  rw [FileSystem.entries] at hmem
  cases h.entry_cases path with
  | error _ failed' => rw [failed'] at hmem; cases hmem
  | new _ _ leads' => rw [leads'] at hmem; cases hmem
  | behind _ _ _ failed' => rw [failed'] at hmem; cases hmem
  | @grows place above above' found leads leads' held held' grows =>
    rw [leads'] at hmem
    rcases grows.of_mem hmem with ⟨inner, hinner, hgrows⟩ | ⟨hnew, hnone⟩
    · refine .inl (List.mem_map.mpr ⟨(key, inner), ?_, (ofEntry_added h _ hgrows).symm⟩)
      rw [FileSystem.entries, leads]
      exact hinner
    · obtain ⟨rfl, rfl⟩ := Prod.mk.inj hnew
      have hplace : place = directory := h.place_eq_of_new held held' hnone hmem
      right
      rcases grows.eq_or_directory with heq | ⟨entries, entries', rfl, -⟩
      · rw [heq] at hmem
        exact absurd hmem (Entry.not_mem_of_at?_eq_none hnone _)
      · exact ⟨hplace ▸ passes_inDirectory h found leads, rfl⟩

/-- What lies below a path lies there still. -/
theorem mem_below_added {levels : Nat} {path : Path} {spot : Spot}
    (hspot : spot ∈ below fs levels path) : spot ∈ below fs' levels path := by
  induction levels generalizing path with
  | zero => cases hspot
  | succ levels ih =>
    obtain ⟨first, hfirst, hmore⟩ := List.mem_flatMap.mp hspot
    refine List.mem_flatMap.mpr ⟨first, mem_held_added h hfirst, ?_⟩
    rcases List.mem_cons.mp hmore with rfl | hmore
    · exact List.mem_cons_self
    · split at hmore
      · rename_i hdirectory
        rw [if_pos hdirectory]
        exact List.mem_cons_of_mem _ (ih hmore)
      · cases hmore

theorem of_mem_below_added {levels : Nat} {path : Path} {spot : Spot}
    (hspot : spot ∈ below fs' levels path) :
    spot ∈ below fs levels path ∨ AtFile fs directory name spot := by
  induction levels generalizing path with
  | zero => cases hspot
  | succ levels ih =>
    obtain ⟨first, hfirst, hmore⟩ := List.mem_flatMap.mp hspot
    rcases of_mem_held_added h hfirst with hheld | hfile
    · rcases List.mem_cons.mp hmore with rfl | hmore
      · exact .inl (List.mem_flatMap.mpr ⟨spot, hheld, List.mem_cons_self⟩)
      · split at hmore
        · rename_i hdirectory
          refine (ih hmore).imp_left fun hbelow => List.mem_flatMap.mpr ⟨first, hheld, ?_⟩
          rw [if_pos hdirectory]
          exact List.mem_cons_of_mem _ hbelow
        · cases hmore
    · rw [hfile.isDirectory, if_neg Bool.false_ne_true, List.mem_singleton] at hmore
      exact .inr (hmore ▸ hfile)

theorem mem_matching_added {part : Pattern} {path : Path} {spot : Spot}
    (hspot : spot ∈ matching fs part path) : spot ∈ matching fs' part path := by
  unfold matching at hspot ⊢
  rw [h.isDirectory_eq]
  split at hspot
  · rename_i hdirectory
    rw [if_pos hdirectory]
    refine List.mem_append.mpr ((List.mem_append.mp hspot).imp (fun hdots => ?_) fun hheld => ?_)
    · simpa only [ofPath_added h] using hdots
    · obtain ⟨hmem, hends⟩ := List.mem_filter.mp hheld
      exact List.mem_filter.mpr ⟨mem_held_added h hmem, hends⟩
  · cases hspot

theorem of_mem_matching_added {part : Pattern} {path : Path} {spot : Spot}
    (hspot : spot ∈ matching fs' part path) :
    spot ∈ matching fs part path ∨ AtFile fs directory name spot := by
  unfold matching at hspot ⊢
  rw [h.isDirectory_eq] at hspot
  split at hspot
  · rename_i hdirectory
    rw [if_pos hdirectory]
    rcases List.mem_append.mp hspot with hdots | hheld
    · refine .inl (List.mem_append_left _ ?_)
      simpa only [ofPath_added h] using hdots
    · obtain ⟨hmem, hends⟩ := List.mem_filter.mp hheld
      refine (of_mem_held_added h hmem).imp_left fun hmem => ?_
      exact List.mem_append_right _ (List.mem_filter.mpr ⟨hmem, hends⟩)
  · cases hspot

/-! ## Patterns -/

theorem canStep_atFile {spot : Spot} (hspot : AtFile fs directory name spot) {step : RawText}
    (hsep : Path.separator ∉ step) :
    canStep fs' spot (inDirectory spot.path step) step = false := by
  obtain ⟨front, hsegments, -⟩ := hspot.passes
  have hname := Path.fileName?_of_segments h.isName hsegments
  have hjoin : inDirectory spot.path step = spot.path.join step := by
    refine if_neg fun hhere => ?_
    rw [Path.fileName?, hhere] at hname
    cases hname
  rw [canStep_of_linkFree h.linkFree', hjoin, h.not_exists_join hspot.passes hsep,
    hspot.isDirectory, ite_self]

/-- Behind the file a pattern leads nowhere. -/
theorem passes_of_mem_expandFrom {parts : List Pattern}
    (hparts : ∀ part ∈ parts, ∀ step, part.literal? = some step →
      Path.separator ∉ step.map Glyph.char)
    {directoriesOnly : Bool} {spot : Spot} (hspot : AtFile fs directory name spot) {path : Path}
    (hpath : path ∈ expandFrom fs' directoriesOnly parts spot) :
    fs.Passes directory name path [] := by
  have hdirectory : fs'.isDirectory spot.path = false := by
    rw [h.isDirectory_eq, h.isDirectory_of_passes hspot.passes]
  cases parts with
  | nil =>
    unfold expandFrom at hpath
    split at hpath
    · cases hpath
    · exact List.mem_singleton.mp hpath ▸ hspot.passes
  | cons part parts =>
    have hbelow : ∀ levels, below fs' levels spot.path = [] := by
      intro levels
      cases levels with
      | zero => rfl
      | succ levels => rw [below, held, FileSystem.entries_eq_nil hdirectory]; rfl
    unfold expandFrom at hpath
    split at hpath
    · cases parts <;> simp [hbelow] at hpath
    · split at hpath
      · rename_i step hstep
        have hcan := canStep_atFile h hspot (hparts part List.mem_cons_self step hstep)
        simp [hcan] at hpath
      · simp [matching, hdirectory] at hpath

theorem canStep_added {spot : Spot} {next : Path} {step : RawText}
    (hcan : canStep fs spot next step = true) : canStep fs' spot next step = true := by
  rw [canStep_of_linkFree h.linkFree] at hcan
  rw [canStep_of_linkFree h.linkFree']
  by_cases hdot : step = Path.here ∨ step = Path.up
  · rwa [if_pos hdot] at hcan ⊢
  · rw [if_neg hdot] at hcan ⊢
    exact h.exists_of_exists hcan

theorem of_canStep_added {spot : Spot} {next : Path} {step : RawText}
    (hcan : canStep fs' spot next step = true) :
    canStep fs spot next step = true ∨ fs.Passes directory name next [] := by
  rw [canStep_of_linkFree h.linkFree'] at hcan
  rw [canStep_of_linkFree h.linkFree]
  by_cases hdot : step = Path.here ∨ step = Path.up
  · rw [if_pos hdot] at hcan ⊢
    exact .inl hcan
  · rw [if_neg hdot] at hcan ⊢
    exact h.of_exists hcan

theorem takesTo_added {parts rest : List Pattern} {spot next : Spot}
    (htakes : TakesTo fs parts spot rest next) : TakesTo fs' parts spot rest next := by
  cases htakes with
  | last recursive mem directory => exact .last recursive (mem_below_added h mem) directory
  | below recursive mem ends => exact .below recursive (mem_below_added h mem) ends
  | matching not_recursive not_literal mem =>
    exact .matching not_recursive not_literal (mem_matching_added h mem)
  | literal not_recursive literal can =>
    rw [← ofPath_added h]
    exact .literal not_recursive literal (canStep_added h can)

theorem of_takesTo_added {parts rest : List Pattern} {spot next : Spot}
    (htakes : TakesTo fs' parts spot rest next) :
    TakesTo fs parts spot rest next ∨ AtFile fs directory name next := by
  cases htakes with
  | last recursive mem directory =>
    exact (of_mem_below_added h mem).imp_left fun hmem => .last recursive hmem directory
  | below recursive mem ends =>
    exact (of_mem_below_added h mem).imp_left fun hmem => .below recursive hmem ends
  | matching not_recursive not_literal mem =>
    exact (of_mem_matching_added h mem).imp_left fun hmem =>
      .matching not_recursive not_literal hmem
  | literal not_recursive literal can =>
    rw [ofPath_added h]
    refine (of_canStep_added h can).imp (.literal not_recursive literal) fun hpasses => ?_
    exact ⟨hpasses, h.isDirectory_of_passes hpasses⟩

/-- What the parts stand for they stand for still. -/
theorem mem_expandFrom_added {parts : List Pattern} {directoriesOnly : Bool} {spot : Spot}
    {path : Path} (hpath : path ∈ expandFrom fs directoriesOnly parts spot) :
    path ∈ expandFrom fs' directoriesOnly parts spot := by
  -- on the number of parts: `**` takes the part behind it along
  induction hlength : parts.length using Nat.strongRecOn generalizing parts spot with
  | ind length ih =>
    cases parts with
    | nil => simpa [expandFrom] using hpath
    | cons part parts =>
      obtain ⟨rest, next, htakes, hmore⟩ := mem_expandFrom_iff.mp hpath
      have hshorter := htakes.suffix.length_le
      rw [List.length_cons] at hlength
      exact mem_expandFrom_iff.mpr
        ⟨rest, next, takesTo_added h htakes, ih rest.length (by omega) hmore rfl⟩

/-- Otherwise they stand only for the file. -/
theorem of_mem_expandFrom_added {parts : List Pattern}
    (hparts : ∀ part ∈ parts, ∀ step, part.literal? = some step →
      Path.separator ∉ step.map Glyph.char)
    {directoriesOnly : Bool} {spot : Spot} {path : Path}
    (hpath : path ∈ expandFrom fs' directoriesOnly parts spot) :
    path ∈ expandFrom fs directoriesOnly parts spot ∨ fs.Passes directory name path [] := by
  induction hlength : parts.length using Nat.strongRecOn generalizing parts spot with
  | ind length ih =>
    cases parts with
    | nil => exact .inl (by simpa [expandFrom] using hpath)
    | cons part parts =>
      obtain ⟨rest, next, htakes, hmore⟩ := mem_expandFrom_iff.mp hpath
      have hshorter := htakes.suffix.length_le
      rw [List.length_cons] at hlength
      have hrest : ∀ part ∈ rest, ∀ step, part.literal? = some step →
          Path.separator ∉ step.map Glyph.char :=
        fun part hpart => hparts part (List.mem_cons_of_mem _ (htakes.suffix.subset hpart))
      rcases of_takesTo_added h htakes with hbefore | hfile
      · refine (ih rest.length (by omega) hrest hmore rfl).imp_left fun hmem => ?_
        exact mem_expandFrom_iff.mpr ⟨rest, next, hbefore, hmem⟩
      · exact .inr (passes_of_mem_expandFrom h hrest hfile hmore)

theorem mem_expanded_added {pattern : Path} (htext : pattern.IsText) {path : Path}
    (hpath : path ∈ (expand fs pattern.lossy).toOption.getD []) :
    path ∈ (expand fs' pattern.lossy).toOption.getD [] := by
  rw [expanded_eq fs htext] at hpath
  rw [expanded_eq fs' htext]
  split at hpath
  · rw [ofPath_added h]
    exact mem_expandFrom_added h hpath
  · cases hpath

/-- A pattern stands for what it stood for, or for the file. -/
theorem of_mem_expanded_added {pattern : Path} (htext : pattern.IsText) {path : Path}
    (hpath : path ∈ (expand fs' pattern.lossy).toOption.getD []) :
    path ∈ (expand fs pattern.lossy).toOption.getD [] ∨ fs.Passes directory name path [] := by
  rw [expanded_eq fs' htext] at hpath
  rw [expanded_eq fs htext]
  split at hpath
  · rename_i whole patterns hwhole hpatterns
    rw [ofPath_added h] at hpath
    refine of_mem_expandFrom_added h (fun part hpart step hstep => ?_) hpath
    obtain ⟨piece, hpiece, hparse⟩ := exists_piece_of_mem hpatterns (mem_of_mem_collapse hpart)
    have htail : RawText.IsText (if pattern.isAbsolute then pattern.tail else pattern) := by
      split
      · exact fun g hg => htext g (List.mem_of_mem_tail hg)
      · exact htext
    rw [step_of_literal (Path.isText_of_mem_pieces htail hpiece) hparse hstep]
    exact (Path.mem_pieces hpiece).1
  · cases hpath

end

end Glob

end MessageHarvest
