import MessageHarvest.Proofs.Scan.Found

/-!
# What a scan ignores

An ignore is written from the base directory on. It means the files whose route from there begins
with its own, or is matched by it if it is a pattern (`Ignores.Means`). A scan compares spellings
instead (`Ignores.Heeds`): a literal ignore counts only for files whose paths begin with a dot just
when its own does, and a pattern has to match what is left of the path as it is spelled.

* `Scan.mem_files_iff_not_heeded`: a scan leaves out what its ignores heed, and nothing else.
* `Scan.no_file_meant_iff`: when none of the files that are meant is scanned. Includes without
  patterns and base directories that begin with a name suffice for literal ignores, and for all of
  them if the includes are tidy.
* `Scan.meant_file_scanned`: the file of a pattern below `.` is scanned though a literal ignore
  means it.
-/

namespace MessageHarvest

namespace Ignores

/-- Whether an ignore means a file. -/
def Means (base : Path) (text : String) (file : Path) : Prop :=
  ∃ rest, file.route = base.route ++ rest ∧
    if Glob.hasWildcard text then
      ∃ pattern, Glob.Pattern.parse text = .ok pattern ∧ isMatched (Path.ofRoute rest) pattern
    else Path.route (.ofString text) <+: rest

/-- Whether an ignore keeps a file out of a scan. -/
def Heeds (base : Path) (text : String) (file : Path) : Prop :=
  if Glob.hasWildcard text then
    ∃ pattern, Glob.Pattern.parse text = .ok pattern ∧
      isMatched ((file.stripPrefix? base).getD file) pattern
  else
    (base.join (.ofString text)).components = [] ∨
      (base.join (.ofString text)).isDotted = file.isDotted ∧
        base.route ++ Path.route (.ofString text) <+: file.route

theorem covers_iff {base file : Path} {texts : List String}
    (hrelative : ∀ text ∈ texts, Glob.hasWildcard text = false →
      Path.isAbsolute (.ofString text) = false) :
    (ofTexts base texts).covers base file ↔ ∃ text ∈ texts, Heeds base text file := by
  have hliteral : ∀ text ∈ texts, Glob.hasWildcard text = false →
      (file.startsWith (base.join (.ofString text)) ↔ Heeds base text file) := by
    intro text htext hwild
    rw [Path.startsWith_iff, Path.route_join base (hrelative text htext hwild), Heeds, hwild]
    simp
  have hpattern : ∀ text, Glob.hasWildcard text = true →
      ((∃ pattern, (Glob.Pattern.parse text).toOption = some pattern ∧
        isMatched ((file.stripPrefix? base).getD file) pattern) ↔ Heeds base text file) := by
    intro text hwild
    rw [Heeds, if_pos hwild]
    cases Glob.Pattern.parse text <;> simp [Except.toOption]
  simp only [covers, ofTexts, Bool.or_eq_true, List.any_eq_true, List.mem_map, List.mem_filter,
    List.mem_filterMap]
  constructor
  · rintro (⟨_, ⟨text, ⟨htext, hwild⟩, rfl⟩, h⟩ | ⟨pattern, ⟨text, ⟨htext, hwild⟩, hparse⟩, h⟩)
    · exact ⟨text, htext, (hliteral text htext (by simpa using hwild)).mp h⟩
    · exact ⟨text, htext, (hpattern text hwild).mp ⟨pattern, hparse, h⟩⟩
  · rintro ⟨text, htext, h⟩
    cases hwild : Glob.hasWildcard text with
    | false =>
      exact .inl ⟨_, ⟨text, ⟨htext, by simp [hwild]⟩, rfl⟩, (hliteral text htext hwild).mpr h⟩
    | true =>
      obtain ⟨pattern, hparse, hmatched⟩ := (hpattern text hwild).mpr h
      exact .inr ⟨pattern, ⟨text, ⟨htext, hwild⟩, hparse⟩, hmatched⟩

/-- A literal ignore is heeded for the files that it means if their paths begin like its own. -/
theorem heeds_of_means_literal {base : Path} (hbase : base ≠ []) {text : String}
    (hrelative : Path.isAbsolute (.ofString text) = false) (hwild : Glob.hasWildcard text = false)
    {file : Path} (hdot : file.isDotted = base.isDotted) (h : Means base text file) :
    Heeds base text file := by
  obtain ⟨rest, hroute, hmeans⟩ := h
  rw [if_neg (by simp [hwild])] at hmeans
  rw [Heeds, if_neg (by simp [hwild])]
  refine .inr ⟨by rw [Path.isDotted_join hbase hrelative, hdot], ?_⟩
  rw [hroute]
  exact (List.prefix_append_right_inj _).mpr hmeans

/-- A pattern is heeded for the files that it means if their paths are tidy and begin like the base
directory. -/
theorem heeds_of_means_pattern {base : Path} (hbase : base ≠ []) {text : String}
    (hwild : Glob.hasWildcard text = true) {file : Path} (htidy : Path.Tidy file)
    (habs : file.isAbsolute = base.isAbsolute) (hdot : file.isDotted = base.isDotted)
    (h : Means base text file) : Heeds base text file := by
  obtain ⟨rest, hroute, hmeans⟩ := h
  rw [if_pos hwild] at hmeans
  rw [Heeds, if_pos hwild, htidy.stripPrefix?_eq hbase habs hdot.symm hroute]
  exact hmeans

end Ignores

namespace Scan

open Ignores (Means Heeds)

variable {fs : FileSystem} {base : String} {includes ignores : List String}

/-- A scan leaves out what its ignores heed, and nothing else. -/
theorem mem_files_iff_not_heeded (hfs : fs.WellFormed)
    (hrelative : ∀ text ∈ ignores, Path.isAbsolute (.ofString text) = false) {file : String} :
    file ∈ (scan fs base includes ignores).files ↔
      file ∈ (scan fs base includes []).files ∧
        ∀ text ∈ ignores, ¬ Heeds (.ofString base) text (.ofString file) := by
  have hnone : (Ignores.ofTexts (.ofString base) []).covers (.ofString base) (.ofString file) =
      false := rfl
  have hheeded : (Ignores.ofTexts (.ofString base) ignores).covers (.ofString base)
      (.ofString file) = false ↔
        ∀ text ∈ ignores, ¬ Heeds (.ofString base) text (.ofString file) := by
    rw [← Bool.not_eq_true, Ignores.covers_iff fun text htext _ => hrelative text htext]
    simp
  rw [mem_files_iff hfs, mem_files_iff hfs]
  simp only [accepts, hnone, Bool.and_eq_true, Bool.not_eq_true', ← hheeded, Bool.not_false,
    true_and]
  constructor
  · rintro ⟨hmet, ⟨hcovered, hfile⟩, htree⟩
    exact ⟨⟨hmet, hfile, htree⟩, hcovered⟩
  · rintro ⟨⟨hmet, hfile, htree⟩, hcovered⟩
    exact ⟨hmet, ⟨hcovered, hfile⟩, htree⟩

/-- Everything that such includes name begins like the base directory: no include is a pattern, or
the base directory begins with a name. -/
structure KeepsStart (base : Path) (includes : List String) : Prop where
  ne_nil : base ≠ []
  relative : base.isAbsolute = false
  verbatim : Glob.IsVerbatim base
  includes_relative : ∀ text ∈ includes, Path.isAbsolute (.ofString text) = false
  literal_or_bare : (∀ text ∈ includes, Glob.hasWildcard text = false) ∨ base.isDotted = false

theorem KeepsStart.relative_of_mem {base : Path} (h : KeepsStart base includes) {text : String}
    (htext : text ∈ effective includes) : Path.isAbsolute (.ofString text) = false := by
  unfold effective at htext
  split at htext
  · rw [List.mem_singleton.mp htext]
    decide
  · exact h.includes_relative text htext

theorem KeepsStart.isDotted_eq (hfs : fs.WellFormed) {base : Path} (hbase : base.IsText)
    (h : KeepsStart base includes) {root found : Path} (hroot : root ∈ roots fs base includes)
    (hfound : .ok found ∈ fs.walk root) : found.isDotted = base.isDotted := by
  obtain ⟨text, htext, ⟨-, hpieces⟩ | ⟨hwild, hexpand⟩⟩ := root_cases hroot
  · rw [(start_of_literal hfs hpieces hfound).2, includePath,
      Path.isDotted_join h.ne_nil (h.relative_of_mem htext)]
  · have hbare : base.isDotted = false := by
      refine h.literal_or_bare.resolve_left fun hall => ?_
      unfold effective at htext
      split at htext
      · rw [List.mem_singleton.mp htext] at hwild
        cases hwild
      · rw [hall text htext] at hwild
        cases hwild
    obtain ⟨first, rest, hpieces⟩ := List.exists_cons_of_ne_nil (Path.pieces_ne_nil h.ne_nil)
    have hidle : Path.isIdle first = false := by
      rw [← Bool.not_eq_true, Path.isIdle_first hpieces]
      simp [h.relative, hbare]
    have hverbatim : Glob.IsVerbatim first := h.verbatim.of_mem_pieces (by simp [hpieces])
    have hinclude : (includePath base text).pieces =
        first :: (rest ++ Path.pieces (.ofString text)) := by
      rw [includePath, Path.pieces_join base (h.relative_of_mem htext), hpieces]
      rfl
    have hroot_bare := Glob.bare_of_mem_expand hfs (isText_includePath hbase text) hinclude hidle
      hverbatim hexpand
    obtain ⟨names, hnames, rfl⟩ := hfs.mem_walk hfound
    rw [(hroot_bare.extend hnames).2, hbare]

theorem not_means_literal (hfs : fs.WellFormed)
    (hrelative : ∀ text ∈ ignores, Path.isAbsolute (.ofString text) = false)
    (hstart : KeepsStart (.ofString base) includes) {file : String}
    (hfile : file ∈ (scan fs base includes ignores).files) {text : String} (htext : text ∈ ignores)
    (hwild : Glob.hasWildcard text = false) : ¬ Means (.ofString base) text (.ofString file) := by
  intro hmeans
  obtain ⟨⟨root, hroot, hmet⟩, -⟩ := (mem_files_iff hfs).mp hfile
  have hdot := hstart.isDotted_eq hfs (RawText.isText_ofString base) hroot hmet
  have hheeds :=
    Ignores.heeds_of_means_literal hstart.ne_nil (hrelative text htext) hwild hdot hmeans
  exact ((mem_files_iff_not_heeded hfs hrelative).mp hfile).2 text htext hheeds

theorem not_means (hfs : fs.WellFormed)
    (hrelative : ∀ text ∈ ignores, Path.isAbsolute (.ofString text) = false)
    (hstart : KeepsStart (.ofString base) includes) (htidy : TidyIncludes (.ofString base) includes)
    {file : String} (hfile : file ∈ (scan fs base includes ignores).files) {text : String}
    (htext : text ∈ ignores) : ¬ Means (.ofString base) text (.ofString file) := by
  cases hwild : Glob.hasWildcard text with
  | false => exact not_means_literal hfs hrelative hstart hfile htext hwild
  | true =>
    intro hmeans
    obtain ⟨⟨root, hroot, hmet⟩, -⟩ := (mem_files_iff hfs).mp hfile
    have hbase := RawText.isText_ofString base
    have hdot := hstart.isDotted_eq hfs hbase hroot hmet
    obtain ⟨inc, hinc, hfile_tidy, habs, -⟩ := htidy.spelling_of_found hfs hbase hroot hmet
    rw [includePath, Path.isAbsolute_join _ (hstart.relative_of_mem hinc)] at habs
    have hheeds := Ignores.heeds_of_means_pattern hstart.ne_nil hwild hfile_tidy habs hdot hmeans
    exact ((mem_files_iff_not_heeded hfs hrelative).mp hfile).2 text htext hheeds

/-- No file that is meant to be ignored is scanned, just when each of them that could be scanned is
kept out by some ignore. So it is for literal ignores if the scanned paths begin like the base
directory, and for all of them if the includes are tidy, too. -/
theorem no_file_meant_iff (hfs : fs.WellFormed)
    (hrelative : ∀ text ∈ ignores, Path.isAbsolute (.ofString text) = false) :
    ((∀ file ∈ (scan fs base includes ignores).files, ∀ text ∈ ignores,
        ¬ Means (.ofString base) text (.ofString file)) ↔
      ∀ file ∈ (scan fs base includes []).files,
        (∃ text ∈ ignores, Means (.ofString base) text (.ofString file)) →
        ∃ text ∈ ignores, Heeds (.ofString base) text (.ofString file)) ∧
    (KeepsStart (.ofString base) includes →
      ∀ file ∈ (scan fs base includes ignores).files, ∀ text ∈ ignores,
        Glob.hasWildcard text = false → ¬ Means (.ofString base) text (.ofString file)) ∧
    (KeepsStart (.ofString base) includes → TidyIncludes (.ofString base) includes →
      ∀ file ∈ (scan fs base includes ignores).files, ∀ text ∈ ignores,
        ¬ Means (.ofString base) text (.ofString file)) := by
  refine ⟨⟨?_, ?_⟩, ?_, ?_⟩
  · rintro hnone file hfile ⟨text, htext, hmeans⟩
    apply Classical.byContradiction
    intro hheeds
    have hmem := (mem_files_iff_not_heeded hfs hrelative).mpr
      ⟨hfile, fun text htext h => hheeds ⟨text, htext, h⟩⟩
    exact hnone file hmem text htext hmeans
  · intro hall file hfile text htext hmeans
    obtain ⟨hfound, hnot⟩ := (mem_files_iff_not_heeded hfs hrelative).mp hfile
    obtain ⟨other, hother, hheeds⟩ := hall file hfound ⟨text, htext, hmeans⟩
    exact hnot other hother hheeds
  · exact fun hstart file hfile text htext hwild =>
      not_means_literal hfs hrelative hstart hfile htext hwild
  · exact fun hstart htidy file hfile text htext =>
      not_means hfs hrelative hstart htidy hfile htext

/-! ## A file that is left over -/

/-- A directory of templates and, in it, one of templates that are not to be read. -/
def leftover : FileSystem where
  root := .directory [(.ofString "templates", .directory
    [(.ofString "page.ast.json", .file []),
      (.ofString "cache", .directory [(.ofString "old.ast.json", .file [])])])]

theorem leftover_wellFormed : leftover.WellFormed where
  named := by
    have hcache : (Entry.directory [(.ofString "old.ast.json", .file [])]).Named :=
      .directory (by decide) (by simpa using .file [])
    refine .directory (by decide) ?_
    simp only [List.forall_mem_singleton]
    refine .directory (by decide) ?_
    simpa using ⟨.file [], hcache⟩
  working := ⟨_, rfl⟩

/-- What is to be ignored in a directory is, if the directory is written first. -/
theorem no_file_meant_in_templates :
    (scan leftover "templates" ["*"] ["cache", "old.*"]).files = ["templates/page.ast.json"] ∧
      ∀ file ∈ (scan leftover "templates" ["*"] ["cache", "old.*"]).files,
        ∀ text ∈ ["cache", "old.*"], ¬ Means (.ofString "templates") text (.ofString file) := by
  have hhead : ∀ text ∈ effective ["*"],
      ∀ piece ∈ (includePath (.ofString "templates") text).pieces,
        piece.lossy.toList.head? ≠ some '.' := by decide
  refine ⟨by decide +kernel, ?_⟩
  refine (no_file_meant_iff leftover_wellFormed (by decide)).2.2
    ⟨by decide, by decide, by decide, by decide, .inr (by decide)⟩ ⟨by decide, ?_⟩
  exact fun text htext _ piece hpiece => Glob.avoidsDots_of_head? (hhead text htext piece hpiece)

/-- The pattern gives the dot of the base directory away, and the literal ignore keeps it. -/
theorem meant_file_scanned :
    "templates/cache/old.ast.json" ∈
        (scan leftover "." ["templates/*"] ["templates/cache"]).files ∧
      Means (.ofString ".") "templates/cache" (.ofString "templates/cache/old.ast.json") := by
  refine ⟨mem_inOrder.mpr (by decide +kernel),
    Path.route (.ofString "templates/cache/old.ast.json"), by decide, ?_⟩
  rw [if_neg (by decide)]
  decide

end Scan

end MessageHarvest
