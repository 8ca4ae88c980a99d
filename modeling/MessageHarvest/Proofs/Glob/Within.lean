import MessageHarvest.Proofs.FileSystem.Within
import MessageHarvest.Proofs.Glob.Spelling

/-!
# Patterns that stay in a directory

A part of a pattern leads on by names, unless it stands for the directory above: as `..`, or with
wildcards as in `.*`. Behind the path of a directory that is read literally, parts that do not stand
for that find what the directory holds.

* `Pattern.climbs`: whether a part with wildcards stands for the directory above.
* `expandFrom_within`: what other parts find from a directory on. `expandFrom_way`: how the pieces
  of its path lead to it.
* `expand_within`: what a pattern finds behind the path of a directory.
-/

namespace MessageHarvest

open MessageHarvest.Path (Within Component component? component?_of_isIdle component?_of_ne_up)

namespace Glob

/-- Whether a part with wildcards stands for the directory above. -/
def Pattern.climbs (part : Pattern) : Bool :=
  part.literal?.isNone && part.tokens.head? = some (.char '.') &&
    part.matches (RawText.lossy Path.up).toList

/-- Whether a piece of a pattern is such a part. -/
def climbs (piece : RawText) : Bool :=
  (Pattern.parse piece.lossy).toOption.any Pattern.climbs

/-- A part that does not lead out of a directory. -/
structure Stays (part : Pattern) : Prop where
  no_separator : ∀ step, part.literal? = some step → Path.separator ∉ step.map Glyph.char
  ne_up : ∀ step, part.literal? = some step → step.map Glyph.char ≠ Path.up
  climbs : part.climbs = false

variable {fs fs' : FileSystem} {base path : Path}

/-! ## Names in a directory -/

/-- A step in a directory comes after the steps to the directory. -/
theorem steps_inDirectory (path : Path) {step : RawText} (hsep : Path.separator ∉ step) :
    (inDirectory path step).isAbsolute = path.isAbsolute ∧
      (inDirectory path step).steps = path.steps ++ Path.steps step := by
  have hrelative := Path.isAbsolute_of_not_mem hsep
  unfold inDirectory
  split
  · rename_i hhere
    obtain ⟨hpath, hsteps⟩ := Path.steps_of_components_here hhere
    exact ⟨hrelative.trans hpath.symm, by rw [hsteps, List.nil_append]⟩
  · exact ⟨Path.isAbsolute_join path hrelative, Path.steps_join path hrelative⟩

theorem up_not_mem_steps {step : RawText} (hsep : Path.separator ∉ step) (hup : step ≠ Path.up) :
    .up ∉ Path.steps step := by
  rw [← Path.filterMap_segments, Path.segments_of_not_mem hsep]
  cases hidle : Path.isIdle step with
  | true => simp [component?_of_isIdle hidle]
  | false => simp [component?_of_ne_up hidle hup]

theorem within_inDirectory (h : Within base path) {step : RawText} (hsep : Path.separator ∉ step)
    (hup : step ≠ Path.up) : Within base (inDirectory path step) := by
  obtain ⟨habs, hsteps⟩ := steps_inDirectory path hsep
  exact h.of_append (up_not_mem_steps hsep hup) habs hsteps

theorem within_inDirectory_name (h : Within base path) {name : RawText}
    (hname : Path.IsName name) : Within base (inDirectory path name) :=
  within_inDirectory h hname.no_separator hname.ne_up

/-! ## What is held, and what lies below -/

section

variable (h : fs.Shares fs' base)

include h

theorem held_eq (hpath : Within base path) : held fs' path = held fs path := by
  have hentries : fs'.entries path = fs.entries path := by
    rw [FileSystem.entries, FileSystem.entries, h.entry_eq hpath]
  rw [held, held, hentries]
  refine List.map_congr_left ?_
  rintro ⟨name, entry⟩ hmem
  have hname := h.wellFormed.isName_of_mem_entries hmem
  cases entry with
  | file | directory => rfl
  | link target =>
    have hbelow := h.entry_eq (within_inDirectory_name hpath hname)
    simp only [Spot.ofEntry, Spot.ofPath, FileSystem.isDirectory, hbelow]

theorem ofPath_eq (hpath : Within base path) : Spot.ofPath fs' path = Spot.ofPath fs path := by
  rw [Spot.ofPath, Spot.ofPath, FileSystem.isDirectory, FileSystem.isDirectory, h.entry_eq hpath]

theorem within_of_mem_below (hpath : Within base path) {levels : Nat} {spot : Spot}
    (hspot : spot ∈ below fs levels path) : Within base spot.path :=
  mem_below h.wellFormed (fun _ hname => within_inDirectory_name hpath hname)
    (fun _ _ hpath hname => within_inDirectory_name hpath hname) hspot

theorem within_of_mem_held (hpath : Within base path) {spot : Spot} (hspot : spot ∈ held fs path) :
    Within base spot.path := by
  obtain ⟨name, hname, heq⟩ := mem_held h.wellFormed hspot
  exact heq ▸ within_inDirectory_name hpath hname

theorem below_eq (hpath : Within base path) (levels : Nat) :
    below fs' levels path = below fs levels path := by
  induction levels generalizing path with
  | zero => rfl
  | succ levels ih =>
    rw [below, below, held_eq h hpath]
    refine List.flatMap_congr fun spot hspot => ?_
    rw [ih (within_of_mem_held h hpath hspot)]

/-! ## Parts that stay -/

theorem matching_eq {part : Pattern} (hliteral : part.literal? = none)
    (hclimbs : part.climbs = false) (hpath : Within base path) :
    matching fs' part path = matching fs part path ∧
      ∀ spot ∈ matching fs part path, Within base spot.path := by
  have hdots : ∀ dot ∈ ((if part.tokens.head? = some (.char '.') then [Path.here, Path.up]
      else []).filter fun name => part.matches (RawText.lossy name).toList),
      Within base (path.join dot) := by
    intro dot hdot
    obtain ⟨hmem, hmatches⟩ := List.mem_filter.mp hdot
    split at hmem
    · rename_i hhead
      rcases List.mem_cons.mp hmem with rfl | hmem
      · exact hpath.join (by decide) (by decide)
      · rw [List.mem_singleton.mp hmem] at hmatches
        simp [Pattern.climbs, hliteral, hhead, hmatches] at hclimbs
    · cases hmem
  have hdirectory : fs'.isDirectory path = fs.isDirectory path := by
    rw [FileSystem.isDirectory, FileSystem.isDirectory, h.entry_eq hpath]
  rw [matching, matching, hdirectory]
  split
  · refine ⟨?_, fun spot hspot => ?_⟩
    · rw [held_eq h hpath]
      exact congrArg (· ++ _) (List.map_congr_left fun dot hdot => ofPath_eq h (hdots dot hdot))
    · rcases List.mem_append.mp hspot with hspot | hspot
      · obtain ⟨dot, hdot, rfl⟩ := List.mem_map.mp hspot
        exact hdots dot hdot
      · exact within_of_mem_held h hpath (List.mem_filter.mp hspot).1
  · exact ⟨rfl, List.forall_mem_nil _⟩

theorem canStep_eq {spot : Spot} {next : Path} (hnext : Within base next) (step : RawText) :
    canStep fs' spot next step = canStep fs spot next step := by
  rw [canStep_of_linkFree h.linkFree, canStep_of_linkFree h.linkFree', FileSystem.«exists»,
    FileSystem.«exists», h.entry_eq hnext]

/-- From the directory on, parts that stay find only what it holds, and the same in both. -/
theorem expandFrom_within {directoriesOnly : Bool} {parts : List Pattern}
    (hparts : ∀ part ∈ parts, Stays part) {spot : Spot} (hspot : Within base spot.path) :
    expandFrom fs' directoriesOnly parts spot = expandFrom fs directoriesOnly parts spot ∧
      ∀ path ∈ expandFrom fs directoriesOnly parts spot, Within base path := by
  induction hlength : parts.length using Nat.strongRecOn generalizing parts spot with
  | ind length ih =>
    -- the parts that are left are taken from each of the places that were reached
    have hall : ∀ {rest : List Pattern} {spots : List Spot}, rest.length < length →
        (∀ part ∈ rest, Stays part) → (∀ next ∈ spots, Within base next.path) →
        spots.flatMap (expandFrom fs' directoriesOnly rest) =
            spots.flatMap (expandFrom fs directoriesOnly rest) ∧
          ∀ path ∈ spots.flatMap (expandFrom fs directoriesOnly rest), Within base path := by
      intro rest spots hshorter hrest hspots
      refine ⟨List.flatMap_congr fun next hnext => (ih _ hshorter hrest (hspots next hnext) rfl).1,
        fun path hpath => ?_⟩
      obtain ⟨next, hnext, hmore⟩ := List.mem_flatMap.mp hpath
      exact (ih _ hshorter hrest (hspots next hnext) rfl).2 path hmore
    cases parts with
    | nil =>
      unfold expandFrom
      split
      · exact ⟨rfl, List.forall_mem_nil _⟩
      · exact ⟨rfl, fun path hpath => List.mem_singleton.mp hpath ▸ hspot⟩
    | cons part parts =>
      obtain ⟨hpart, hrest⟩ := List.forall_mem_cons.mp hparts
      have hshorter : parts.length < length := by simp at hlength; omega
      unfold expandFrom
      split
      · have hbelow := below_eq h hspot Path.sizeLimit
        have hwithin : ∀ next ∈ below fs Path.sizeLimit spot.path, Within base next.path :=
          fun next hnext => within_of_mem_below h hspot hnext
        cases parts with
        | nil =>
          simp only [hbelow, true_and]
          intro path hpath
          obtain ⟨next, hnext, rfl⟩ := List.mem_map.mp hpath
          exact hwithin next (List.mem_filter.mp hnext).1
        | cons q parts =>
          simp only [hbelow]
          exact hall (Nat.lt_of_succ_lt hshorter) (fun p hp => hrest p (List.mem_cons_of_mem _ hp))
            fun next hnext => hwithin next (List.mem_filter.mp hnext).1
      · split
        · rename_i step hstep
          have hnext : Within base (inDirectory spot.path (step.map Glyph.char)) :=
            within_inDirectory hspot (hpart.no_separator step hstep) (hpart.ne_up step hstep)
          simp only [canStep_eq h hnext, ofPath_eq h hnext]
          split
          · exact ih _ hshorter hrest hnext rfl
          · exact ⟨rfl, List.forall_mem_nil _⟩
        · rename_i hliteral
          obtain ⟨heq, hwithin⟩ := matching_eq h hliteral hpart.climbs hspot
          rw [heq]
          exact hall hshorter hrest hwithin

end

/-! ## The way to the directory -/

/-- Whether a path leads to a directory if these pieces come after it. -/
structure LeadsBefore (base : Path) (pieces : List RawText) (path : Path) : Prop where
  relative : path.isAbsolute = false
  steps : path.steps ++ pieces.filterMap component? = base.steps

theorem LeadsBefore.next {piece : RawText} {pieces : List RawText}
    (h : LeadsBefore base (piece :: pieces) path) (hsep : Path.separator ∉ piece) :
    LeadsBefore base pieces (inDirectory path piece) := by
  obtain ⟨habs, hsteps⟩ := steps_inDirectory path hsep
  have hpiece : Path.steps piece = [piece].filterMap component? := by
    rw [← Path.filterMap_segments, Path.segments_of_not_mem hsep]
  refine ⟨habs.trans h.relative, ?_⟩
  rw [hsteps, ← h.steps, List.append_assoc, hpiece, ← List.filterMap_append, List.singleton_append]

/-- The pieces of the path of the directory, if they are read literally, lead to the same paths in
both file systems, and these lead to the directory. -/
theorem expandFrom_way (h : fs.Shares fs' base) {directoriesOnly : Bool} {front rest : List RawText}
    (hfront : ∀ piece ∈ front, IsVerbatim piece ∧ piece.IsText ∧ Path.separator ∉ piece)
    {patterns : List Pattern}
    (hparse : (front ++ rest).mapM (fun part => Pattern.parse part.lossy) = .ok patterns)
    {spot : Spot} (hspot : LeadsBefore base front spot.path) :
    ∃ (more : List Pattern) (reached : List Spot),
      rest.mapM (fun part => Pattern.parse part.lossy) = .ok more ∧
      (∀ next ∈ reached, Within base next.path) ∧
      expandFrom fs directoriesOnly (collapse patterns) spot =
        reached.flatMap (expandFrom fs directoriesOnly (collapse more)) ∧
      expandFrom fs' directoriesOnly (collapse patterns) spot =
        reached.flatMap (expandFrom fs' directoriesOnly (collapse more)) := by
  induction front generalizing patterns spot with
  | nil =>
    have hsteps := hspot.steps
    rw [List.filterMap_nil, List.append_nil] at hsteps
    have hwithin : Within base spot.path :=
      ⟨hspot.relative.trans h.relative.symm, [], by rw [hsteps, List.map_nil, List.append_nil]⟩
    exact ⟨patterns, [spot], hparse, by simpa using hwithin, by simp, by simp⟩
  | cons piece front ih =>
    obtain ⟨⟨hverbatim, htext, hsep⟩, hrest⟩ := List.forall_mem_cons.mp hfront
    obtain ⟨q, qs, hq, hqs, rfl⟩ := mapM_parse_cons hparse
    have hliteral := hverbatim.literal? hq
    have hstep : piece.lossy.toList.map Glyph.char = piece := htext.ofString_lossy
    have hnext := hspot.next hsep
    have hexpand : ∀ files : FileSystem,
        expandFrom files directoriesOnly (collapse (q :: qs)) spot =
          if canStep files spot (inDirectory spot.path piece) piece then
            expandFrom files directoriesOnly (collapse qs)
              (.ofPath files (inDirectory spot.path piece))
          else [] := by
      intro files
      rw [collapse_cons_literal hliteral, expandFrom, isRecursive_of_literal hliteral]
      simp only [Bool.false_eq_true, if_false, hliteral, hstep]
    obtain ⟨hdirectory, hexists⟩ := h.isDirectory_eq hnext.relative ⟨_, hnext.steps⟩
    have hpath : Spot.ofPath fs' (inDirectory spot.path piece) =
        Spot.ofPath fs (inDirectory spot.path piece) := by
      rw [Spot.ofPath, Spot.ofPath, hdirectory]
    have hcan : canStep fs' spot (inDirectory spot.path piece) piece =
        canStep fs spot (inDirectory spot.path piece) piece := by
      rw [canStep_of_linkFree h.linkFree, canStep_of_linkFree h.linkFree', hexists]
    obtain ⟨more, reached, hmore, hwithin, heq, heq'⟩ := ih hrest hqs
      (show LeadsBefore base front (Spot.ofPath fs (inDirectory spot.path piece)).path from hnext)
    rw [hexpand, hexpand, hcan, hpath]
    split
    · exact ⟨more, reached, hmore, hwithin, heq, heq'⟩
    · exact ⟨more, [], hmore, List.forall_mem_nil _, rfl, rfl⟩

/-! ## Patterns -/

/-- Whether a pattern leads on from a directory only to what it holds. -/
structure StaysBelow (pattern : Path) : Prop where
  relative : pattern.isAbsolute = false
  up_not_mem : .up ∉ pattern.steps
  climbs : ∀ piece ∈ pattern.pieces, climbs piece = false

theorem StaysBelow.stays {pattern : Path} (h : StaysBelow pattern) (htext : pattern.IsText)
    {piece : RawText} (hpiece : piece ∈ pattern.pieces) {part : Pattern}
    (hparse : Pattern.parse piece.lossy = .ok part) : Stays part where
  no_separator _ hliteral :=
    step_of_literal (Path.isText_of_mem_pieces htext hpiece) hparse hliteral ▸
      (Path.mem_pieces hpiece).1
  ne_up _ hliteral hup := by
    rw [step_of_literal (Path.isText_of_mem_pieces htext hpiece) hparse hliteral] at hup
    exact h.up_not_mem (List.mem_filterMap.mpr ⟨piece, hpiece, hup ▸ Path.component?_up⟩)
  climbs := by
    have hclimbs := h.climbs piece hpiece
    rwa [Glob.climbs, hparse] at hclimbs

/-- Behind the path of a directory that is read literally, a pattern finds only what the directory
holds. -/
theorem expand_within (h : fs.Shares fs' base) (hbase : base.IsText) (hverbatim : IsVerbatim base)
    {pattern : Path} (htext : pattern.IsText) (hpattern : StaysBelow pattern) :
    (expand fs' (RawText.lossy (base.join pattern))).toOption.getD [] =
        (expand fs (RawText.lossy (base.join pattern))).toOption.getD [] ∧
      ∀ path ∈ (expand fs (RawText.lossy (base.join pattern))).toOption.getD [],
        Within base path := by
  have hrelative : (base.join pattern).isAbsolute = false :=
    (Path.isAbsolute_join base hpattern.relative).trans h.relative
  have hjoined : (base.join pattern).IsText := Path.isText_join hbase htext
  have hfront : ∀ piece ∈ base.pieces,
      IsVerbatim piece ∧ piece.IsText ∧ Path.separator ∉ piece := fun piece hpiece =>
    ⟨hverbatim.of_mem_pieces hpiece, Path.isText_of_mem_pieces hbase hpiece,
      (Path.mem_pieces hpiece).1⟩
  rw [expanded_eq fs hjoined, expanded_eq fs' hjoined]
  simp only [hrelative, Bool.false_eq_true, if_false]
  split
  · rename_i whole patterns hwhole hpatterns
    rw [Path.pieces_join base hpattern.relative] at hpatterns
    have hstart : LeadsBefore base base.pieces Path.here := ⟨by decide, rfl⟩
    obtain ⟨hdirectory, -⟩ := h.isDirectory_eq hstart.relative ⟨_, hstart.steps⟩
    have hspot : Spot.ofPath fs' Path.here = Spot.ofPath fs Path.here := by
      rw [Spot.ofPath, Spot.ofPath, hdirectory]
    obtain ⟨more, reached, hmore, hwithin, heq, heq'⟩ := expandFrom_way h hfront hpatterns
      (show LeadsBefore base base.pieces (Spot.ofPath fs Path.here).path from hstart)
    have hstays : ∀ part ∈ collapse more, Stays part := by
      intro part hpart
      obtain ⟨piece, hpiece, hparse⟩ := exists_piece_of_mem hmore (mem_of_mem_collapse hpart)
      exact hpattern.stays htext hpiece hparse
    rw [hspot, heq, heq']
    refine ⟨List.flatMap_congr fun next hnext =>
      (expandFrom_within h hstays (hwithin next hnext)).1, fun path hpath => ?_⟩
    obtain ⟨next, hnext, hfound⟩ := List.mem_flatMap.mp hpath
    exact (expandFrom_within h hstays (hwithin next hnext)).2 path hfound
  · exact ⟨rfl, List.forall_mem_nil _⟩

end Glob

end MessageHarvest
