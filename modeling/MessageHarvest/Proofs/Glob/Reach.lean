import MessageHarvest.Glob.Expansion
import MessageHarvest.Proofs.FileSystem.Descent
import MessageHarvest.Proofs.Glob.Literal

/-!
# Where the parts of a pattern lead

A part of a pattern stands for steps from a path: to a name that a directory holds, to the part
itself if it is literal, to `.` or `..` if it begins with a dot. What holds of the paths at the
start and is kept by these steps holds of all that the pattern stands for.

* `Leads part R P`: the steps of a part lead from paths with `R` to paths with `P`.
* `Leads.exists_next`: what one part does in `expandFrom`.
* `mem_expandFrom`, `mem_expandFrom_cons`: what all of them do, after another or one by one.
-/

namespace MessageHarvest.Glob

/-- Every step that a part of a pattern stands for leads from the paths of `R` to those of `P`. -/
structure Leads (part : Pattern) (R P : Path → Prop) : Prop where
  name : ∀ {path name}, R path → Path.IsName name → P (inDirectory path name)
  literal : ∀ {path step}, R path → part.literal? = some step →
    P (inDirectory path (step.map Glyph.char))
  dots : ∀ {path dot}, R path → part.literal? = none → part.tokens.head? = some (.char '.') →
    dot ∈ [Path.here, Path.up] → P (path.join dot)

variable {fs : FileSystem} {P R : Path → Prop}

/-- Without links a step can be taken to what exists. -/
theorem canStep_of_linkFree (hlinks : fs.LinkFree) (spot : Spot) (next : Path) (step : RawText) :
    canStep fs spot next step =
      if step = Path.here ∨ step = Path.up then spot.isDirectory else fs.exists next := by
  rw [canStep, hlinks.entryItself_eq, FileSystem.«exists», Bool.or_self]

theorem Spot.ofEntry_path (path : Path) (entry : Entry) :
    (Spot.ofEntry fs path entry).path = path := by
  cases entry <;> rfl

theorem mem_held (hfs : fs.WellFormed) {path : Path} {spot : Spot} (h : spot ∈ held fs path) :
    ∃ name, Path.IsName name ∧ spot.path = inDirectory path name := by
  obtain ⟨⟨name, entry⟩, hmem, rfl⟩ := List.mem_map.mp h
  exact ⟨name, hfs.isName_of_mem_entries hmem, Spot.ofEntry_path _ _⟩

theorem mem_below (hfs : fs.WellFormed) {levels : Nat} {path : Path}
    (hfirst : ∀ name, Path.IsName name → P (inDirectory path name))
    (hnext : ∀ path name, P path → Path.IsName name → P (inDirectory path name))
    {spot : Spot} (h : spot ∈ below fs levels path) : P spot.path := by
  induction levels generalizing path with
  | zero => simp [below] at h
  | succ levels ih =>
    obtain ⟨first, hfirst', hspot⟩ := List.mem_flatMap.mp h
    obtain ⟨name, hname, hpath⟩ := mem_held hfs hfirst'
    have hP : P first.path := hpath ▸ hfirst name hname
    rcases List.mem_cons.mp hspot with rfl | hdeeper
    · exact hP
    · split at hdeeper
      · exact ih (fun name hname => hnext _ _ hP hname) hdeeper
      · simp at hdeeper

theorem Leads.mem_matching (hfs : fs.WellFormed) {part : Pattern} (h : Leads part R P)
    (hliteral : part.literal? = none) {path : Path} (hpath : R path) {spot : Spot}
    (hspot : spot ∈ matching fs part path) : P spot.path := by
  unfold matching at hspot
  split at hspot
  · rcases List.mem_append.mp hspot with hdots | hheld
    · obtain ⟨dot, hdot, rfl⟩ := List.mem_map.mp hdots
      have hdot' := (List.mem_filter.mp hdot).1
      split at hdot'
      · rename_i hhead
        exact h.dots hpath hliteral hhead hdot'
      · simp at hdot'
    · obtain ⟨name, hname, hspot⟩ := mem_held hfs (List.mem_filter.mp hheld).1
      exact hspot ▸ h.name hpath hname
  · simp at hspot

/-- What the parts stand for is what fewer of them stand for from a path to which the first of them
leads. -/
theorem Leads.exists_next (hfs : fs.WellFormed) {part : Pattern} (h : Leads part R P)
    (hnext : ∀ path name, P path → Path.IsName name → P (inDirectory path name))
    {directoriesOnly : Bool} {parts : List Pattern} {spot : Spot} (hspot : R spot.path)
    {path : Path} (hpath : path ∈ expandFrom fs directoriesOnly (part :: parts) spot) :
    ∃ rest next, rest <:+ parts ∧ P next.path ∧ path ∈ expandFrom fs directoriesOnly rest next := by
  have hbelow {found : Spot} (hfound : found ∈ below fs Path.sizeLimit spot.path) : P found.path :=
    mem_below hfs (fun name hname => h.name hspot hname) hnext hfound
  unfold expandFrom at hpath
  split at hpath
  · cases parts with
    | nil =>
      obtain ⟨found, hfound, rfl⟩ := List.mem_map.mp hpath
      obtain ⟨hmem, hdirectory⟩ := List.mem_filter.mp hfound
      exact ⟨[], found, List.suffix_rfl, hbelow hmem, by simp [expandFrom, hdirectory]⟩
    | cons q parts =>
      obtain ⟨found, hfound, hmore⟩ := List.mem_flatMap.mp hpath
      exact ⟨parts, found, List.suffix_cons q parts, hbelow (List.mem_filter.mp hfound).1, hmore⟩
  · split at hpath
    · rename_i step hstep
      dsimp only at hpath
      split at hpath
      · exact ⟨parts, _, List.suffix_rfl, h.literal hspot hstep, hpath⟩
      · simp at hpath
    · rename_i hliteral
      obtain ⟨found, hfound, hmore⟩ := List.mem_flatMap.mp hpath
      exact ⟨parts, found, List.suffix_rfl, h.mem_matching hfs hliteral hspot hfound, hmore⟩

/-- If no part leads out of `P`, the parts together do not. -/
theorem mem_expandFrom (hfs : fs.WellFormed) {parts : List Pattern}
    (hnext : ∀ path name, P path → Path.IsName name → P (inDirectory path name))
    (hparts : ∀ part ∈ parts, Leads part P P) {directoriesOnly : Bool} {spot : Spot}
    (hspot : P spot.path) {path : Path} (hpath : path ∈ expandFrom fs directoriesOnly parts spot) :
    P path := by
  induction hlength : parts.length using Nat.strongRecOn generalizing parts spot with
  | ind length ih =>
    cases parts with
    | nil =>
      have heq : path = spot.path := by
        unfold expandFrom at hpath
        split at hpath <;> simp_all
      exact heq ▸ hspot
    | cons part parts =>
      obtain ⟨rest, next, hsuffix, hP, hmore⟩ :=
        (hparts part List.mem_cons_self).exists_next hfs hnext hspot hpath
      have hlt : rest.length < length := by
        have := hsuffix.length_le
        simp at hlength
        omega
      exact ih rest.length hlt
        (fun q hq => hparts q (List.mem_cons_of_mem _ (hsuffix.subset hq))) hP hmore rfl

/-- If the first part leads into `P` and the others do not lead out of it, all end there. -/
theorem mem_expandFrom_cons (hfs : fs.WellFormed) {part : Pattern} {parts : List Pattern}
    (hnext : ∀ path name, P path → Path.IsName name → P (inDirectory path name))
    (hpart : Leads part R P) (hparts : ∀ part ∈ parts, Leads part P P) {directoriesOnly : Bool}
    {spot : Spot} (hspot : R spot.path) {path : Path}
    (hpath : path ∈ expandFrom fs directoriesOnly (part :: parts) spot) : P path := by
  obtain ⟨rest, next, hsuffix, hP, hmore⟩ := hpart.exists_next hfs hnext hspot hpath
  exact mem_expandFrom hfs hnext (fun q hq => hparts q (hsuffix.subset hq)) hP hmore

/-! ## The parts of a pattern -/

theorem parts_eq_pieces (path : Path) : parts path = path.pieces := rfl

theorem mem_of_mem_collapse {patterns : List Pattern} {q : Pattern} (h : q ∈ collapse patterns) :
    q ∈ patterns := by
  induction patterns with
  | nil => exact h
  | cons p ps ih =>
    unfold collapse at h
    split at h
    · exact List.mem_cons.mpr (.inl (List.mem_singleton.mp h))
    · rename_i next rest heq
      split at h
      · exact List.mem_cons_of_mem _ (ih (heq ▸ h))
      · rcases List.mem_cons.mp h with rfl | hmem
        · exact List.mem_cons_self
        · exact List.mem_cons_of_mem _ (ih (heq ▸ hmem))

theorem collapse_eq_nil {patterns : List Pattern} (h : collapse patterns = []) : patterns = [] := by
  cases patterns with
  | nil => rfl
  | cons p ps =>
    unfold collapse at h
    split at h
    · cases h
    · split at h <;> cases h

theorem isRecursive_of_literal {q : Pattern} {step : List Char} (h : q.literal? = some step) :
    q.isRecursive = false := by
  simp [Pattern.isRecursive, Pattern.literal?_eq_some_iff.mp h]

theorem collapse_cons_literal {q : Pattern} {step : List Char} (h : q.literal? = some step)
    (patterns : List Pattern) : collapse (q :: patterns) = q :: collapse patterns := by
  rw [collapse]
  cases hrest : collapse patterns with
  | nil => rfl
  | cons p ps => simp [isRecursive_of_literal h]

/-- The first of the parts, if there is one, and the parts after it. -/
theorem mapM_parse_cons {piece : RawText} {pieces : List RawText} {patterns : List Pattern}
    (h : (piece :: pieces).mapM (fun part => Pattern.parse part.lossy) = .ok patterns) :
    ∃ q qs, Pattern.parse piece.lossy = .ok q ∧
      pieces.mapM (fun part => Pattern.parse part.lossy) = .ok qs ∧ patterns = q :: qs := by
  rw [List.mapM_cons] at h
  cases hq : Pattern.parse piece.lossy with
  | error e => simp [hq, bind, Except.bind] at h
  | ok q =>
    cases hqs : pieces.mapM (fun part => Pattern.parse part.lossy) with
    | error e => simp [hq, hqs, bind, Except.bind] at h
    | ok qs =>
      refine ⟨q, qs, rfl, rfl, ?_⟩
      simpa [hq, hqs, bind, Except.bind, pure, Except.pure, eq_comm] using h

theorem exists_piece_of_mem {pieces : List RawText} {patterns : List Pattern}
    (h : pieces.mapM (fun part => Pattern.parse part.lossy) = .ok patterns) {q : Pattern}
    (hq : q ∈ patterns) : ∃ piece ∈ pieces, Pattern.parse piece.lossy = .ok q := by
  induction pieces generalizing patterns with
  | nil =>
    cases h
    simp at hq
  | cons piece pieces ih =>
    obtain ⟨p, ps, hp, hps, rfl⟩ := mapM_parse_cons h
    rcases List.mem_cons.mp hq with rfl | hmem
    · exact ⟨piece, List.mem_cons_self, hp⟩
    · obtain ⟨found, hfound, hparse⟩ := ih hps hmem
      exact ⟨found, List.mem_cons_of_mem _ hfound, hparse⟩

end MessageHarvest.Glob
