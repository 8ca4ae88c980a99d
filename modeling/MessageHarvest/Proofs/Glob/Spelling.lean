import MessageHarvest.Proofs.Glob.Reach

/-!
# How expanded paths are spelled

The paths that a pattern stands for begin without a dot, even if the pattern begins with one: in the
working directory a name is its own path. Otherwise they are spelled as the pattern is.

* `isText_of_mem_expand`: only text is found.
* `bare_of_mem_expand`: what a pattern stands for that begins with a name begins with one.
* `spelled_of_mem_expand`: what a tidy pattern stands for is tidy and begins with no dot.
-/

namespace MessageHarvest

namespace Path

/-- A path that begins with no dot, and is not empty. -/
def Bare (path : Path) : Prop :=
  path ≠ [] ∧ path.isDotted = false

theorem Bare.join {p q : Path} (h : Bare p) (hq : q.isAbsolute = false) : Bare (p.join q) :=
  ⟨join_ne_nil h.1 q, by rw [isDotted_join h.1 hq, h.2]⟩

theorem Bare.extend {path : Path} (h : Bare path) {names : List RawText}
    (hnames : ∀ name ∈ names, IsName name) : Bare (path.extend names) :=
  extend_keeps (fun _ _ hpath hname => hpath.join hname.isAbsolute) h hnames

/-- A path that begins with no dot and is spelled with single separators and without dots on the
way. -/
structure Spelled (absolute : Bool) (path : Path) : Prop where
  bare : Bare path
  tidy : Tidy path
  isAbsolute : path.isAbsolute = absolute

theorem Spelled.join {absolute : Bool} {p q : Path} (h : Spelled absolute p)
    (hq : q.isAbsolute = false) (hidle : ∀ piece ∈ q.pieces, isIdle piece = false) :
    Spelled absolute (p.join q) where
  bare := h.bare.join hq
  tidy := (tidy_join h.bare.1 hq).mpr ⟨h.tidy, hidle⟩
  isAbsolute := by rw [isAbsolute_join p hq, h.isAbsolute]

theorem isText_of_mem_pieces {p : Path} (hp : p.IsText) {s : RawText} (h : s ∈ p.pieces) :
    s.IsText := by
  intro g hg
  exact hp g ((mem_pieces h).2 hg)

/-- A step that is no dot is a tidy path of its own. -/
theorem spelled_of_step {s : RawText} (hidle : isIdle s = false) (hsep : separator ∉ s) :
    Spelled false s := by
  have hne : s ≠ [] := fun he => by simp [he, isIdle] at hidle
  have hhere : s ≠ here := fun he => by simp [he, isIdle] at hidle
  have hpieces := pieces_of_not_mem hne hsep
  exact ⟨⟨hne, by simp [isDotted, hpieces, hhere]⟩, by simp [Tidy, hpieces],
    isAbsolute_of_not_mem hsep⟩

end Path

namespace Glob

open MessageHarvest.Path (Bare Spelled Tidy)

variable {fs : FileSystem}

theorem inDirectory_here (name : RawText) : inDirectory Path.here name = name := by
  have h : Path.components Path.here = [.here] := by decide
  simp [inDirectory, h]

theorem inDirectory_of_bare {path : Path} (h : Bare path) (name : RawText) :
    inDirectory path name = path.join name := by
  have hne : path.components ≠ [.here] := by
    intro he
    rw [Path.components_eq_route, h.2, if_neg (by simp)] at he
    exact Path.here_not_mem_route path (by simp [he])
  simp [inDirectory, hne]

/-! ## The start -/

/-- What a pattern stands for, if it can be read. -/
theorem expanded_eq (files : FileSystem) {pattern : Path} (htext : pattern.IsText) :
    (expand files pattern.lossy).toOption.getD [] =
      match Pattern.parse pattern.lossy,
        (Path.pieces (if pattern.isAbsolute then pattern.tail else pattern)).mapM
          fun part => Pattern.parse part.lossy with
      | .ok _, .ok patterns =>
        expandFrom files (pattern.getLast? = some Path.separator) (collapse patterns)
          (.ofPath files (if pattern.isAbsolute then [Path.separator] else Path.here))
      | _, _ => [] := by
  unfold expand
  simp only [htext.ofString_lossy, parts_eq_pieces]
  cases Pattern.parse pattern.lossy with
  | error e => rfl
  | ok whole =>
    cases (Path.pieces (if pattern.isAbsolute then pattern.tail else pattern)).mapM
        fun part => Pattern.parse part.lossy with
    | error e => rfl
    | ok patterns => rfl

theorem mem_expand {pattern : Path} (htext : pattern.IsText) {path : Path}
    (hpath : path ∈ (expand fs pattern.lossy).toOption.getD []) :
    ∃ patterns directoriesOnly,
      (Path.pieces (if pattern.isAbsolute then pattern.tail else pattern)).mapM
        (fun part => Pattern.parse part.lossy) = .ok patterns ∧
      path ∈ expandFrom fs directoriesOnly (collapse patterns)
        (.ofPath fs (if pattern.isAbsolute then [Path.separator] else Path.here)) := by
  unfold expand at hpath
  simp only [htext.ofString_lossy, parts_eq_pieces] at hpath
  cases hparse : Pattern.parse pattern.lossy with
  | error e => simp [hparse, bind, Except.bind, Except.toOption] at hpath
  | ok whole =>
    cases hparts : (Path.pieces (if pattern.isAbsolute then pattern.tail else pattern)).mapM
        (fun part => Pattern.parse part.lossy) with
    | error e => simp [hparse, hparts, bind, Except.bind, Except.toOption] at hpath
    | ok patterns =>
      simp only [hparse, hparts, bind, Except.bind, pure, Except.pure, Except.toOption,
        Option.getD_some] at hpath
      exact ⟨patterns, _, rfl, hpath⟩

/-! ## Text -/

theorem isText_inDirectory {path : Path} {name : RawText} (hpath : path.IsText)
    (hname : name.IsText) : (inDirectory path name).IsText := by
  unfold inDirectory
  split
  · exact hname
  · exact Path.isText_join hpath hname

theorem leads_isText (part : Pattern) : Leads part RawText.IsText RawText.IsText where
  name hpath hname := isText_inDirectory hpath hname.isText
  literal hpath _ := by
    refine isText_inDirectory hpath fun g hg => ?_
    obtain ⟨c, -, rfl⟩ := List.mem_map.mp hg
    rfl
  dots hpath _ _ hdot := by
    refine Path.isText_join hpath ?_
    rcases List.mem_cons.mp hdot with rfl | hdot
    · decide
    · rw [List.mem_singleton.mp hdot]
      decide

theorem isText_of_mem_expand (hfs : fs.WellFormed) {pattern : Path} (htext : pattern.IsText)
    {path : Path} (hpath : path ∈ (expand fs pattern.lossy).toOption.getD []) : path.IsText := by
  obtain ⟨patterns, directoriesOnly, -, hmem⟩ := mem_expand htext hpath
  refine mem_expandFrom hfs (fun _ _ hpath hname => isText_inDirectory hpath hname.isText)
    (fun part _ => leads_isText part) ?_ hmem
  simp only [Spot.ofPath]
  split <;> decide

/-! ## Parts that begin with a dot -/

/-- The step that a literal part stands for is the piece that it was read from. -/
theorem step_of_literal {piece : RawText} (htext : piece.IsText) {q : Pattern}
    (hparse : Pattern.parse piece.lossy = .ok q) {step : List Char}
    (hliteral : q.literal? = some step) : step.map Glyph.char = piece := by
  rw [Pattern.literal?_of_parse hparse hliteral]
  exact htext.ofString_lossy

theorem leads_bare {piece : RawText} (htext : piece.IsText) (hsep : Path.separator ∉ piece)
    {q : Pattern} (hparse : Pattern.parse piece.lossy = .ok q) : Leads q Bare Bare where
  name hpath hname := by
    rw [inDirectory_of_bare hpath]
    exact hpath.join hname.isAbsolute
  literal hpath hliteral := by
    rw [inDirectory_of_bare hpath, step_of_literal htext hparse hliteral]
    exact hpath.join (Path.isAbsolute_of_not_mem hsep)
  dots hpath _ _ hdot := by
    refine hpath.join ?_
    rcases List.mem_cons.mp hdot with rfl | hdot
    · decide
    · rw [List.mem_singleton.mp hdot]
      decide

/-- A part with wildcards does not begin with a dot, so that it stands neither for `.` nor for `..`.
-/
def AvoidsDots (piece : RawText) : Prop :=
  ∀ q, Pattern.parse piece.lossy = .ok q → q.literal? = none →
    q.tokens.head? ≠ some (.char '.')

theorem avoidsDots_of_head? {piece : RawText} (h : piece.lossy.toList.head? ≠ some '.') :
    AvoidsDots piece := by
  intro q hparse _ hhead
  obtain ⟨result, hresult, rfl⟩ := Pattern.exists_of_parse hparse
  exact h (Pattern.head?_of_parseFrom hresult hhead)

/-- A piece that stands for names only. -/
structure Plain (piece : RawText) : Prop where
  isText : piece.IsText
  isStep : Path.isIdle piece = false
  no_separator : Path.separator ∉ piece
  avoidsDots : AvoidsDots piece

namespace Plain

variable {piece : RawText}

theorem leads_spelled (h : Plain piece) {q : Pattern}
    (hparse : Pattern.parse piece.lossy = .ok q) (absolute : Bool) :
    Leads q (Spelled absolute) (Spelled absolute) where
  name hpath hname := by
    rw [inDirectory_of_bare hpath.bare]
    exact hpath.join hname.isAbsolute (by simp [hname.pieces, hname.isStep])
  literal hpath hliteral := by
    have hstep := Path.spelled_of_step h.isStep h.no_separator
    have hpieces := Path.pieces_of_not_mem hstep.bare.1 h.no_separator
    rw [inDirectory_of_bare hpath.bare, step_of_literal h.isText hparse hliteral]
    exact hpath.join hstep.isAbsolute (by simp [hpieces, h.isStep])
  dots _ hliteral hhead _ := absurd hhead (h.avoidsDots q hparse hliteral)

/-- In the working directory a step leads to a path that is spelled like the step. -/
theorem leads_from_here (h : Plain piece) {q : Pattern}
    (hparse : Pattern.parse piece.lossy = .ok q) :
    Leads q (· = Path.here) (Spelled false) where
  name hpath hname := by
    rw [hpath, inDirectory_here]
    exact Path.spelled_of_step hname.isStep hname.no_separator
  literal hpath hliteral := by
    rw [hpath, inDirectory_here, step_of_literal h.isText hparse hliteral]
    exact Path.spelled_of_step h.isStep h.no_separator
  dots _ hliteral hhead _ := absurd hhead (h.avoidsDots q hparse hliteral)

end Plain

theorem Spelled.inDirectory {absolute : Bool} {path : Path} {name : RawText}
    (h : Spelled absolute path) (hname : Path.IsName name) :
    Spelled absolute (inDirectory path name) := by
  rw [inDirectory_of_bare h.bare]
  exact h.join hname.isAbsolute (by simp [hname.pieces, hname.isStep])

/-- From a path that is spelled so, plain parts lead to such paths. -/
theorem spelled_of_mem_expandFrom (hfs : fs.WellFormed) {pieces : List RawText}
    (hplain : ∀ piece ∈ pieces, Plain piece) {patterns : List Pattern}
    (hparse : pieces.mapM (fun part => Pattern.parse part.lossy) = .ok patterns)
    {absolute directoriesOnly : Bool} {spot : Spot} (hspot : Spelled absolute spot.path)
    {path : Path} (hpath : path ∈ expandFrom fs directoriesOnly (collapse patterns) spot) :
    Spelled absolute path := by
  refine mem_expandFrom hfs (fun _ _ => Spelled.inDirectory) (fun q hq => ?_) hspot hpath
  obtain ⟨piece, hpiece, hq⟩ := exists_piece_of_mem hparse (mem_of_mem_collapse hq)
  exact (hplain piece hpiece).leads_spelled hq absolute

/-- From the working directory, plain parts lead to paths that begin with a name. -/
theorem spelled_of_mem_expandFrom_here (hfs : fs.WellFormed) {pieces : List RawText}
    (hne : pieces ≠ []) (hplain : ∀ piece ∈ pieces, Plain piece) {patterns : List Pattern}
    (hparse : pieces.mapM (fun part => Pattern.parse part.lossy) = .ok patterns)
    {directoriesOnly : Bool} {path : Path}
    (hpath : path ∈ expandFrom fs directoriesOnly (collapse patterns) (.ofPath fs Path.here)) :
    Spelled false path := by
  have hleads : ∀ q ∈ collapse patterns, ∃ piece, Plain piece ∧
      Pattern.parse piece.lossy = .ok q := by
    intro q hq
    obtain ⟨piece, hpiece, hq⟩ := exists_piece_of_mem hparse (mem_of_mem_collapse hq)
    exact ⟨piece, hplain piece hpiece, hq⟩
  cases hparts : collapse patterns with
  | nil =>
    obtain ⟨piece, pieces, rfl⟩ := List.exists_cons_of_ne_nil hne
    obtain ⟨q, qs, -, -, rfl⟩ := mapM_parse_cons hparse
    exact absurd (collapse_eq_nil hparts) (by simp)
  | cons part parts =>
    rw [hparts] at hpath hleads
    obtain ⟨piece, hpiece, hpart⟩ := hleads part List.mem_cons_self
    refine mem_expandFrom_cons hfs (fun _ _ => Spelled.inDirectory)
      (hpiece.leads_from_here hpart) (fun q hq => ?_) rfl hpath
    obtain ⟨piece, hpiece, hq⟩ := hleads q (List.mem_cons_of_mem _ hq)
    exact hpiece.leads_spelled hq false

/-! ## Patterns -/

/-- A part that can only be read literally. -/
def IsVerbatim (piece : RawText) : Prop :=
  ∀ c ∈ piece.lossy.toList, c ≠ '*' ∧ c ≠ '?' ∧ c ≠ '['

instance (piece : RawText) : Decidable (IsVerbatim piece) :=
  List.decidableBAll _ _

theorem IsVerbatim.of_mem_pieces {path : Path} (h : IsVerbatim path) {piece : RawText}
    (hpiece : piece ∈ path.pieces) : IsVerbatim piece := by
  have hsubset := (Path.mem_pieces hpiece).2
  intro c hc
  obtain ⟨g, hg, rfl⟩ : ∃ g ∈ piece, g.shown = c := by simpa [RawText.lossy] using hc
  exact h _ (by simpa [RawText.lossy] using ⟨g, hsubset hg, rfl⟩)

theorem IsVerbatim.literal? {piece : RawText} (h : IsVerbatim piece) {q : Pattern}
    (hparse : Pattern.parse piece.lossy = .ok q) : q.literal? = some piece.lossy.toList := by
  rw [Pattern.parse_of_plain h] at hparse
  cases hparse
  exact Pattern.literal?_eq_some_iff.mpr rfl

/-- A dot at the beginning leads nowhere. -/
theorem mem_expandFrom_dot {pieces : List RawText} {patterns : List Pattern}
    (hparse : (Path.here :: pieces).mapM (fun part => Pattern.parse part.lossy) = .ok patterns)
    {directoriesOnly : Bool} {path : Path}
    (hpath : path ∈ expandFrom fs directoriesOnly (collapse patterns) (.ofPath fs Path.here)) :
    ∃ more, pieces.mapM (fun part => Pattern.parse part.lossy) = .ok more ∧
      path ∈ expandFrom fs directoriesOnly (collapse more) (.ofPath fs Path.here) := by
  obtain ⟨q, qs, hq, hqs, rfl⟩ := mapM_parse_cons hparse
  have hverbatim : IsVerbatim Path.here := by decide
  have hliteral := hverbatim.literal? hq
  have hstep : (RawText.lossy Path.here).toList.map Glyph.char = Path.here := by decide
  rw [collapse_cons_literal hliteral, expandFrom, isRecursive_of_literal hliteral] at hpath
  simp only [Bool.false_eq_true, if_false, hliteral, hstep] at hpath
  split at hpath
  · exact ⟨qs, hqs, by simpa [Spot.ofPath, inDirectory_here] using hpath⟩
  · simp at hpath

theorem pieces_of_hasWildcard {pattern : Path} (h : hasWildcard pattern.lossy = true) :
    pattern.pieces ≠ [] ∧ pattern.pieces ≠ [Path.here] := by
  constructor
  · intro hpieces
    by_cases hne : pattern = []
    · rw [hne] at h
      exact absurd h (by decide)
    · exact Path.pieces_ne_nil hne hpieces
  · intro hpieces
    rw [← Path.ofSegments_segments pattern] at h
    rcases Path.segments_eq_pieces pattern with hs | hs <;> rw [hs, hpieces] at h <;>
      exact absurd h (by decide)

/-- What a tidy pattern stands for is tidy and begins with no dot. -/
theorem spelled_of_mem_expand (hfs : fs.WellFormed) {pattern : Path}
    (hwild : hasWildcard pattern.lossy = true) (htext : pattern.IsText) (htidy : Tidy pattern)
    (hdots : ∀ piece ∈ pattern.pieces, AvoidsDots piece) {path : Path}
    (hpath : path ∈ (expand fs pattern.lossy).toOption.getD []) :
    Spelled pattern.isAbsolute path := by
  obtain ⟨hne, hhere⟩ := pieces_of_hasWildcard hwild
  obtain ⟨first, rest, hpieces⟩ := List.exists_cons_of_ne_nil hne
  have hplain : ∀ piece ∈ pattern.pieces, Path.isIdle piece = false → Plain piece :=
    fun piece hpiece hidle => ⟨Path.isText_of_mem_pieces htext hpiece, hidle,
      (Path.mem_pieces hpiece).1, hdots piece hpiece⟩
  have hrest : ∀ piece ∈ rest, Plain piece := fun piece hpiece =>
    hplain piece (by simp [hpieces, hpiece]) (htidy piece (by simp [hpieces, hpiece]))
  obtain ⟨patterns, directoriesOnly, hparse, hmem⟩ := mem_expand htext hpath
  cases habs : pattern.isAbsolute with
  | true =>
    have htail : Path.pieces pattern.tail = rest := by
      obtain ⟨tail, rfl⟩ := List.head?_eq_some_iff.mp (by simpa [Path.isAbsolute] using habs)
      have happend := Path.pieces_append [] tail
      simp only [List.nil_append, hpieces, Path.segments, List.singleton_append] at happend
      exact (List.cons.inj happend).2.symm
    have hroot : Spelled true [Path.separator] :=
      ⟨⟨by simp, by decide⟩, by simp [Tidy, Path.pieces, Path.segments], by decide⟩
    simp only [habs, if_true, htail] at hparse hmem
    exact spelled_of_mem_expandFrom hfs hrest hparse hroot hmem
  | false =>
    simp only [habs, Bool.false_eq_true, if_false, hpieces] at hparse hmem
    by_cases hdot : first = Path.here
    · rw [hdot] at hparse
      obtain ⟨more, hmore, hmem⟩ := mem_expandFrom_dot hparse hmem
      have hne : rest ≠ [] := by
        rintro rfl
        exact hhere (by rw [hpieces, hdot])
      exact spelled_of_mem_expandFrom_here hfs hne hrest hmore hmem
    · have hfirst : Path.isIdle first = false := by
        rw [← Bool.not_eq_true, Path.isIdle_first hpieces]
        simp [habs, Path.isDotted, hpieces, hdot]
      refine spelled_of_mem_expandFrom_here hfs (List.cons_ne_nil first rest) ?_ hparse hmem
      intro piece hpiece
      rcases List.mem_cons.mp hpiece with rfl | hpiece
      · exact hplain _ (by simp [hpieces]) hfirst
      · exact hrest piece hpiece

/-- What a pattern stands for that begins with a name begins with one, too. -/
theorem bare_of_mem_expand (hfs : fs.WellFormed) {pattern : Path} (htext : pattern.IsText)
    {first : RawText} {rest : List RawText} (hpieces : pattern.pieces = first :: rest)
    (hidle : Path.isIdle first = false) (hverbatim : IsVerbatim first) {path : Path}
    (hpath : path ∈ (expand fs pattern.lossy).toOption.getD []) : Bare path := by
  have habs : pattern.isAbsolute = false := by
    rw [← Bool.not_eq_true, Path.isIdle_first hpieces, not_or] at hidle
    simpa using hidle.1
  have hmem_pieces : first ∈ pattern.pieces := by simp [hpieces]
  have htext_first := Path.isText_of_mem_pieces htext hmem_pieces
  have hstep := Path.spelled_of_step hidle (Path.mem_pieces hmem_pieces).1
  obtain ⟨patterns, directoriesOnly, hparse, hmem⟩ := mem_expand htext hpath
  simp only [habs, Bool.false_eq_true, if_false, hpieces] at hparse hmem
  obtain ⟨q, qs, hq, hqs, rfl⟩ := mapM_parse_cons hparse
  have hliteral := hverbatim.literal? hq
  rw [collapse_cons_literal hliteral] at hmem
  have hleads : Leads q (· = Path.here) Bare := by
    refine ⟨?_, ?_, ?_⟩
    · rintro path name rfl hname
      rw [inDirectory_here]
      exact (Path.spelled_of_step hname.isStep hname.no_separator).bare
    · rintro path step rfl hstep'
      rw [inDirectory_here, step_of_literal htext_first hq hstep']
      exact hstep.bare
    · intro _ _ _ hnone
      rw [hliteral] at hnone
      cases hnone
  refine mem_expandFrom_cons hfs (fun path name hbare hname => ?_) hleads (fun q hq => ?_) rfl hmem
  · rw [inDirectory_of_bare hbare]
    exact hbare.join hname.isAbsolute
  · obtain ⟨piece, hpiece, hq⟩ := exists_piece_of_mem hqs (mem_of_mem_collapse hq)
    have hmem : piece ∈ pattern.pieces := by simp [hpieces, hpiece]
    exact leads_bare (Path.isText_of_mem_pieces htext hmem) (Path.mem_pieces hmem).1 hq

end Glob

end MessageHarvest
