import MessageHarvest.Project
import MessageHarvest.Proofs.Scan.Found

/-!
# Files that are found twice

A scan gives each path once. Two paths of one route are two spellings of the same file, and whether
a scan gives both depends on how its roots are spelled.

* `Scan.no_doublets_iff`: no file is given twice, just when all roots from which it is reached spell
  the way to it alike. Includes that are tidy and begin alike suffice, and then no template is read
  twice.
* `Scan.doublet_found`: an include and a pattern that overlaps it below `.` give a file twice.
-/

namespace MessageHarvest

namespace Scan

/-- No two of the files have the same route. -/
def NoDoublets (files : List String) : Prop :=
  ∀ file ∈ files, ∀ other ∈ files,
    Path.route (.ofString file) = Path.route (.ofString other) → file = other

/-- Whether a walk from the root meets a file to be listed when it has taken the names. -/
def Reaches (fs : FileSystem) (base : Path) (ignores : Ignores) (root : Path)
    (names : List RawText) : Prop :=
  .ok (root.extend names) ∈ fs.walk root ∧ accepts fs base ignores (root.extend names)

/-- The roots spell their common way to a file alike, wherever one of them lies below another. -/
def SpellAlike (fs : FileSystem) (base : Path) (ignores : Ignores) (roots : List Path) : Prop :=
  ∀ root ∈ roots, ∀ other ∈ roots, ∀ names more, (∀ name ∈ names ++ more, Path.IsName name) →
    other.route = root.route ++ names.map Path.Component.name →
    Reaches fs base ignores root (names ++ more) → Reaches fs base ignores other more →
    other.pieces = root.pieces ++ names

/-- Includes that all begin with a dot or all without one, but for absolute ones. Patterns give
their dots away. -/
def BeginAlike (base : Path) (includes : List String) : Prop :=
  ∃ dotted, ∀ text ∈ effective includes, (includePath base text).isAbsolute = true ∨
    (!Glob.hasWildcard text && (includePath base text).isDotted) = dotted

variable {fs : FileSystem}

theorem getLast?_of_accepts (hfs : fs.WellFormed) {base path : Path} {ignores : Ignores}
    (h : accepts fs base ignores path) : path.getLast? ≠ some Path.separator := by
  simp only [accepts, Bool.and_eq_true] at h
  exact hfs.getLast?_of_isFile h.1.2

/-- Where one root lies below another, they give a file that both reach once. -/
theorem SpellAlike.eq_of_reaches (hfs : fs.WellFormed) {base : Path} {ignores : Ignores}
    {roots : List Path} (h : SpellAlike fs base ignores roots) {root other : Path}
    (hroot : root ∈ roots) (hother : other ∈ roots) {names more : List RawText}
    (hnames : ∀ name ∈ names ++ more, Path.IsName name)
    (hroute : other.route = root.route ++ names.map Path.Component.name)
    (hreach : Reaches fs base ignores root (names ++ more))
    (hreach' : Reaches fs base ignores other more) :
    root.extend (names ++ more) = other.extend more := by
  have hpieces := h root hroot other hother names more hnames hroute hreach hreach'
  have hmore : ∀ name ∈ more, Path.IsName name := fun n hn => hnames n (List.mem_append_right _ hn)
  refine Path.eq_of_pieces_eq (getLast?_of_accepts hfs hreach.2)
    (getLast?_of_accepts hfs hreach'.2) ?_
  rw [Path.pieces_extend root hnames, Path.pieces_extend other hmore, hpieces, List.append_assoc]

theorem exists_reaches (hfs : fs.WellFormed) {base : String} {includes ignores : List String}
    {file : String} (h : file ∈ (scan fs base includes ignores).files) :
    ∃ root ∈ roots fs (.ofString base) includes, ∃ names, (∀ name ∈ names, Path.IsName name) ∧
      .ofString file = root.extend names ∧
      Reaches fs (.ofString base) (.ofTexts (.ofString base) ignores) root names := by
  obtain ⟨⟨root, hroot, hmet⟩, haccepts⟩ := (mem_files_iff hfs).mp h
  obtain ⟨names, hnames, heq⟩ := hfs.mem_walk hmet
  exact ⟨root, hroot, names, hnames, heq, heq ▸ hmet, heq ▸ haccepts⟩

theorem mem_files_of_reaches (hfs : fs.WellFormed) {base : String}
    {includes ignores : List String} {root : Path}
    (hroot : root ∈ roots fs (.ofString base) includes) {names : List RawText}
    (hnames : ∀ name ∈ names, Path.IsName name)
    (h : Reaches fs (.ofString base) (.ofTexts (.ofString base) ignores) root names) :
    ∃ file ∈ (scan fs base includes ignores).files, .ofString file = root.extend names := by
  have htext := Path.isText_extend
    (isText_of_mem_roots hfs (RawText.isText_ofString base) hroot) hnames
  refine ⟨(root.extend names).lossy, ?_, htext.ofString_lossy⟩
  rw [mem_files_iff hfs, htext.ofString_lossy]
  exact ⟨⟨root, hroot, h.1⟩, h.2⟩

theorem noDoublets_of_spellAlike (hfs : fs.WellFormed) {base : String}
    {includes ignores : List String}
    (h : SpellAlike fs (.ofString base) (.ofTexts (.ofString base) ignores)
      (roots fs (.ofString base) includes)) :
    NoDoublets (scan fs base includes ignores).files := by
  intro file hfile other hother hroute
  obtain ⟨r, hr, ns, hns, hfile_eq, hreach⟩ := exists_reaches hfs hfile
  obtain ⟨r', hr', ms, hms, hother_eq, hreach'⟩ := exists_reaches hfs hother
  rw [hfile_eq, hother_eq, Path.route_extend r hns, Path.route_extend r' hms] at hroute
  have hpath : r.extend ns = r'.extend ms := by
    -- one of the roots lies below the other, or they are equally deep
    rcases List.append_eq_append_iff.mp hroute with ⟨between, hbelow, hsplit⟩ |
      ⟨between, hbelow, hsplit⟩
    · obtain ⟨names, more, rfl, rfl, hmore⟩ := List.map_eq_append_iff.mp hsplit
      obtain rfl := (List.map_inj_right fun _ _ => Path.Component.name.inj).mp hmore
      exact h.eq_of_reaches hfs hr hr' hns hbelow hreach hreach'
    · obtain ⟨names, more, rfl, rfl, hmore⟩ := List.map_eq_append_iff.mp hsplit
      obtain rfl := (List.map_inj_right fun _ _ => Path.Component.name.inj).mp hmore
      exact (h.eq_of_reaches hfs hr' hr hms hbelow hreach' hreach).symm
  rw [← RawText.lossy_ofString file, ← RawText.lossy_ofString other, hfile_eq, hother_eq, hpath]

theorem spellAlike_of_noDoublets (hfs : fs.WellFormed) {base : String}
    {includes ignores : List String} (h : NoDoublets (scan fs base includes ignores).files) :
    SpellAlike fs (.ofString base) (.ofTexts (.ofString base) ignores)
      (roots fs (.ofString base) includes) := by
  intro root hroot other hother names more hnames hroute hreach hreach'
  have hmore : ∀ name ∈ more, Path.IsName name := fun n hn => hnames n (List.mem_append_right _ hn)
  obtain ⟨file, hfile, hfile_eq⟩ := mem_files_of_reaches hfs hroot hnames hreach
  obtain ⟨file', hfile', hfile_eq'⟩ := mem_files_of_reaches hfs hother hmore hreach'
  have hsame : file = file' := by
    refine h file hfile file' hfile' ?_
    rw [hfile_eq, hfile_eq', Path.route_extend root hnames, Path.route_extend other hmore, hroute]
    simp
  have hpieces : (root.extend (names ++ more)).pieces = (other.extend more).pieces := by
    rw [← hfile_eq, ← hfile_eq', hsame]
  rw [Path.pieces_extend root hnames, Path.pieces_extend other hmore,
    ← List.append_assoc] at hpieces
  exact (List.append_cancel_right hpieces).symm

/-- Tidy paths that begin alike are spelled as their routes are. -/
theorem noDoublets_of_tidy (hfs : fs.WellFormed) {base : String} {includes ignores : List String}
    (htidy : TidyIncludes (.ofString base) includes)
    (halike : BeginAlike (.ofString base) includes) :
    NoDoublets (scan fs base includes ignores).files := by
  obtain ⟨dotted, hdotted⟩ := halike
  have hspelled : ∀ file ∈ (scan fs base includes ignores).files,
      Path.Tidy (.ofString file) ∧
      (Path.isAbsolute (.ofString file) = true ∨ Path.isDotted (.ofString file) = dotted) ∧
      (RawText.ofString file).getLast? ≠ some Path.separator := by
    intro file hfile
    obtain ⟨⟨root, hroot, hmet⟩, haccepts⟩ := (mem_files_iff hfs).mp hfile
    obtain ⟨text, htext, hfile_tidy, habs, hdot⟩ :=
      htidy.spelling_of_found hfs (RawText.isText_ofString base) hroot hmet
    refine ⟨hfile_tidy, ?_, getLast?_of_accepts hfs haccepts⟩
    rw [habs, hdot]
    exact hdotted text htext
  intro file hfile other hother hroute
  obtain ⟨htidy, hstart, hlast⟩ := hspelled file hfile
  obtain ⟨htidy', hstart', hlast'⟩ := hspelled other hother
  obtain ⟨habs, -⟩ := Path.isAbsolute_and_steps_of_route_eq hroute
  have hdot : Path.isDotted (.ofString file) = Path.isDotted (.ofString other) := by
    cases hfile_abs : Path.isAbsolute (.ofString file) with
    | true =>
      rw [Path.not_isDotted_of_isAbsolute hfile_abs,
        Path.not_isDotted_of_isAbsolute (habs ▸ hfile_abs)]
    | false =>
      rw [hstart.resolve_left (by simp [hfile_abs]),
        hstart'.resolve_left (by simp [← habs, hfile_abs])]
  have hpieces := htidy.pieces_eq_of_route_eq htidy' hroute hdot
  have heq := Path.eq_of_pieces_eq hlast hlast' hpieces
  rw [← RawText.lossy_ofString file, heq, RawText.lossy_ofString]

/-! ## Reading templates -/

theorem file_of_extractTemplate {registry : Registry} {policy : FaultPolicy} {file : String}
    {template : Template} (h : (extractTemplate fs registry policy file).1 = some template) :
    template.file = file := by
  unfold extractTemplate at h
  split at h
  · unfold extractTree at h
    split at h
    · cases h
      rfl
    · cases h
  · cases h

/-- Every template is read from a file of the extraction, in the order of the files. -/
theorem files_of_run (extraction : Project.Extraction) (fs : FileSystem) :
    ((extraction.run fs).templates.map Template.file).Sublist extraction.files := by
  obtain ⟨config, files⟩ := extraction
  simp only [Project.Extraction.run]
  induction files with
  | nil => simp
  | cons file files ih =>
    rw [List.map_cons, List.filterMap_cons]
    split
    · exact ih.trans (List.sublist_cons_self file files)
    · rename_i template htemplate
      rw [List.map_cons, file_of_extractTemplate htemplate]
      exact ih.cons_cons file

/-- If no file is found twice, no template is read twice. -/
theorem NoDoublets.nodup_run {files : List String} (h : NoDoublets files) (hnodup : files.Nodup)
    (config : Config) (fs : FileSystem) :
    ((Project.Extraction.run ⟨config, files⟩ fs).templates.map fun template =>
      Path.route (.ofString template.file)).Nodup := by
  have hroutes : files.Pairwise fun file other =>
      Path.route (.ofString file) ≠ Path.route (.ofString other) :=
    hnodup.imp_of_mem fun hfile hother hne hroute => hne (h _ hfile _ hother hroute)
  have hread := hroutes.sublist (files_of_run ⟨config, files⟩ fs)
  rw [List.pairwise_map] at hread
  exact List.pairwise_map.mpr hread

/-- No file is given twice, just when the roots spell the ways to the files alike. So it is if the
includes are tidy and begin alike; and if no file is given twice, no template is read twice. -/
theorem no_doublets_iff (hfs : fs.WellFormed) {base : String} {includes ignores : List String} :
    (NoDoublets (scan fs base includes ignores).files ↔
      SpellAlike fs (.ofString base) (.ofTexts (.ofString base) ignores)
        (roots fs (.ofString base) includes)) ∧
    (TidyIncludes (.ofString base) includes → BeginAlike (.ofString base) includes →
      NoDoublets (scan fs base includes ignores).files) ∧
    (NoDoublets (scan fs base includes ignores).files → ∀ config : Config,
      ((Project.Extraction.run ⟨config, (scan fs base includes ignores).files⟩ fs).templates.map
        fun template => Path.route (.ofString template.file)).Nodup) := by
  refine ⟨⟨spellAlike_of_noDoublets hfs, noDoublets_of_spellAlike hfs⟩, noDoublets_of_tidy hfs, ?_⟩
  exact fun h config => h.nodup_run (nodup_inOrder _) config fs

/-! ## A file that is found twice -/

/-- A directory of templates, one of them in a directory of its own. -/
def mails : FileSystem where
  root := .directory [(.ofString "templates", .directory
    [(.ofString "mails", .directory [(.ofString "welcome.ast.json", .file [])])])]

theorem mails_wellFormed : mails.WellFormed where
  named := by
    have hmails : (Entry.directory [(.ofString "welcome.ast.json", .file [])]).Named :=
      .directory (by decide) (by simpa using .file [])
    refine .directory (by decide) ?_
    simp only [List.forall_mem_singleton]
    exact .directory (by decide) (by simpa using hmails)
  working := ⟨_, rfl⟩

/-- An include and a pattern may overlap below a directory that is written first. -/
theorem no_doublets_in_templates :
    (scan mails "templates" ["mails", "*"] []).files = ["templates/mails/welcome.ast.json"] ∧
      NoDoublets (scan mails "templates" ["mails", "*"] []).files := by
  have hhead : ∀ text ∈ effective ["mails", "*"],
      ∀ piece ∈ (includePath (.ofString "templates") text).pieces,
        piece.lossy.toList.head? ≠ some '.' := by decide
  refine ⟨by decide +kernel, (no_doublets_iff mails_wellFormed).2.1 ⟨by decide +kernel, ?_⟩
    ⟨false, by decide⟩⟩
  exact fun text htext _ piece hpiece => Glob.avoidsDots_of_head? (hhead text htext piece hpiece)

/-- The paths of the include begin with the dot of the base directory, those of the pattern without
it. -/
theorem doublet_found :
    ¬ NoDoublets (scan mails "." ["templates", "templates/*"] []).files := by
  intro h
  have hsame := h "./templates/mails/welcome.ast.json" (mem_inOrder.mpr (by decide))
    "templates/mails/welcome.ast.json" (mem_inOrder.mpr (by decide +kernel)) (by decide +kernel)
  exact absurd hsame (by decide)

end Scan

end MessageHarvest
