import MessageHarvest.Proofs.FileSystem.Descent
import MessageHarvest.Proofs.Scan.Ignored

/-!
# Scans without patterns and links

Where no include is a pattern and nothing is a link, a scan can be told without walking. It lists
the files below the includes that exist and are not excluded as they are written from the base
directory on.

* `Ignores.Excludes` says what an ignore excludes. `Scan.heeds_iff_excludes`: it is what the ignore
  keeps out of a scan.
* `Scan.mem_files_iff_below`: the files of a scan, for every base directory.
-/

namespace MessageHarvest

namespace Path

/-- A relative path that begins with no dot, as all paths of names do. -/
structure Direct (path : Path) : Prop where
  relative : path.isAbsolute = false
  undotted : path.isDotted = false

instance (path : Path) : Decidable (Direct path) :=
  decidable_of_iff (path.isAbsolute = false ∧ path.isDotted = false)
    ⟨fun ⟨h1, h2⟩ => ⟨h1, h2⟩, fun ⟨h1, h2⟩ => ⟨h1, h2⟩⟩

theorem IsName.direct {name : RawText} (h : IsName name) : Direct name where
  relative := h.isAbsolute
  undotted := by
    have hhere : name ≠ here := by
      rintro rfl
      exact absurd h.isStep (by decide)
    simp [isDotted, h.pieces, hhere]

theorem nil_join {path : Path} (h : path.isAbsolute = false) : join [] path = path := by
  rw [join, if_neg (by simp [h]), if_pos (.inl rfl), List.nil_append]

theorem Direct.isDotted_join (p : Path) {q : Path} (h : Direct q) :
    (p.join q).isDotted = p.isDotted := by
  by_cases hne : p = []
  · rw [hne, nil_join h.relative, h.undotted]
    rfl
  · exact Path.isDotted_join hne h.relative

theorem Direct.join {p q : Path} (hp : Direct p) (hq : Direct q) : Direct (p.join q) where
  relative := by rw [isAbsolute_join p hq.relative, hp.relative]
  undotted := by rw [hq.isDotted_join p, hp.undotted]

theorem Direct.extend {path : Path} (h : Direct path) {names : List RawText}
    (hnames : ∀ name ∈ names, IsName name) : Direct (path.extend names) :=
  extend_keeps (fun _ _ hpath hname => hpath.join hname.direct) h hnames

/-- Names lead on from a joined path as they lead on from its second part. -/
theorem extend_join (p : Path) {q : Path} (hq : q.isAbsolute = false) {names : List RawText}
    (hnames : ∀ name ∈ names, IsName name) : (p.join q).extend names = p.join (q.extend names) := by
  induction names generalizing q with
  | nil => rfl
  | cons name names ih =>
    have hname := hnames name List.mem_cons_self
    have hmore := ih ((isAbsolute_join q hname.isAbsolute).trans hq) fun n hn =>
      hnames n (List.mem_cons_of_mem _ hn)
    rw [extend, List.foldl_cons, join_join p hq hname.isAbsolute]
    exact hmore

/-- Of a direct path nothing is trimmed but what is idle at its end. -/
theorem Direct.ofSegments_pieces {path : Path} (h : Direct path)
    (hend : path = [] ∨ ¬ FileSystem.EndsIdle path.segments) :
    ofSegments (trimEnd (path.pieces.dropWhile isIdle)) = path := by
  rcases hend with rfl | hend
  · rfl
  have hpieces : path.segments = path.pieces :=
    (segments_eq_pieces path).resolve_right fun hidle => hend ⟨[], by simp [hidle], rfl⟩
  obtain ⟨first, rest, hfirst⟩ := List.exists_cons_of_ne_nil (segments_ne_nil path)
  have hstep : ¬ isIdle first = true := by
    rw [isIdle_first (hpieces.symm.trans hfirst), h.relative, h.undotted]
    exact nofun
  have htrim : trimEnd path.segments = path.segments := by
    refine trimEnd_of_getLast? fun s hs => ?_
    exact Bool.eq_false_iff.mpr fun hidle => hend ⟨s, hs, hidle⟩
  rw [← hpieces, hfirst, List.dropWhile_cons_of_neg hstep, ← hfirst, htrim, ofSegments_segments]

/-- A direct path is what is left when it has been joined to another one. -/
theorem Direct.stripPrefix?_join {path : Path} (base : Path) (h : Direct path)
    (hend : ¬ FileSystem.EndsIdle (base.join path).segments) :
    (base.join path).stripPrefix? base = some path := by
  have hsegments := segments_join base h.relative
  have hpath : ¬ FileSystem.EndsIdle path.segments := fun hidle =>
    hend (hsegments ▸ hidle.append base.pieces)
  by_cases hbase : base = []
  · subst hbase
    have hstarts : path.startsWith [] = true := startsWith_iff.mpr (.inl rfl)
    have hempty : components [] = [] := rfl
    have htrim := trimEnd_of_getLast? fun s hs =>
      Bool.eq_false_iff.mpr fun hidle => hpath ⟨s, hs, hidle⟩
    rw [nil_join h.relative, stripPrefix?, if_pos hstarts, anchorAndBody_eq,
      if_neg (by simp [h.relative]), if_neg (by simp [h.undotted])]
    simp only [hempty, if_true, htrim, assemble, here, reduceCtorEq, false_and, if_false,
      List.nil_append, ofSegments_segments]
  · rw [stripPrefix?_of_pieces hbase (pieces_join base h.relative),
      h.ofSegments_pieces (.inr hpath)]

theorem stripPrefix?_self {path : Path} (h : path ≠ []) : path.stripPrefix? path = some [] :=
  stripPrefix?_of_pieces h (List.append_nil path.pieces).symm

end Path

namespace Ignores

/-- Whether an ignore excludes what has this path from the base directory on: a pattern that matches
the path itself, or the first components of the path. -/
def Excludes (text : String) (relative : Path) : Prop :=
  if Glob.hasWildcard text then
    ∃ pattern, Glob.Pattern.parse text = .ok pattern ∧ isMatched relative pattern
  else Path.components (.ofString text) <+: relative.components

instance (text : String) (relative : Path) : Decidable (Excludes text relative) :=
  decidable_of_iff
    (if Glob.hasWildcard text then
      (Glob.Pattern.parse text).toOption.any (isMatched relative) = true
    else Path.components (.ofString text) <+: relative.components) <| by
    unfold Excludes
    cases Glob.Pattern.parse text <;> simp [Except.toOption]

end Ignores

namespace Scan

open MessageHarvest.Path (Direct IsName)
open Ignores (Excludes Heeds)

variable {fs : FileSystem}

/-- The paths at which a scan enters, each with what is written of it from the base directory on. -/
def entrances (base : Path) (includes : List String) : List (Path × Path) :=
  if includes.isEmpty then [(base, [])]
  else includes.map fun text => (includePath base text, .ofString text)

/-- What lies below an entrance is spelled from the base directory on. -/
theorem spelling_of_entrance {base : Path} {includes : List String}
    (hincludes : ∀ text ∈ includes, Direct (.ofString text)) {entrance : Path × Path}
    (h : entrance ∈ entrances base includes) {names : List RawText}
    (hnames : ∀ name ∈ names, IsName name) :
    Direct (entrance.2.extend names) ∧
      (entrance.1.extend names = base.join (entrance.2.extend names) ∨
        entrance.1.extend names = base ∧ entrance.2.extend names = []) := by
  have hnil : Direct [] := by decide
  unfold entrances at h
  split at h
  · obtain rfl := List.mem_singleton.mp h
    refine ⟨hnil.extend hnames, ?_⟩
    cases names with
    | nil => exact .inr ⟨rfl, rfl⟩
    | cons name names =>
      obtain ⟨hname, hrest⟩ := List.forall_mem_cons.mp hnames
      have hfirst : Path.extend [] (name :: names) = Path.extend name names := by
        rw [Path.extend, List.foldl_cons, Path.nil_join hname.isAbsolute, Path.extend]
      left
      rw [hfirst, ← Path.extend_join base hname.isAbsolute hrest]
      rfl
  · obtain ⟨text, htext, rfl⟩ := List.mem_map.mp h
    have hdirect := hincludes text htext
    exact ⟨hdirect.extend hnames, .inl (Path.extend_join base hdirect.relative hnames)⟩

/-- An ignore is heeded for the files that it excludes. -/
theorem heeds_iff_excludes {base file relative : Path} (hrelative : Direct relative)
    (hfile : file = base.join relative ∨ file = base ∧ relative = [])
    (hend : ¬ FileSystem.EndsIdle file.segments) {text : String}
    (htext : Glob.hasWildcard text = false → Direct (.ofString text)) :
    Heeds base text file ↔ Excludes text relative := by
  rw [Heeds, Excludes]
  cases hwild : Glob.hasWildcard text with
  | true =>
    have hleft : file.stripPrefix? base = some relative := by
      rcases hfile with rfl | ⟨rfl, rfl⟩
      · exact hrelative.stripPrefix?_join base hend
      · refine Path.stripPrefix?_self ?_
        rintro rfl
        exact hend ⟨[], rfl, rfl⟩
    rw [if_pos rfl, if_pos rfl, hleft, Option.getD_some]
  | false =>
    have hdirect := htext hwild
    obtain ⟨hdot, hroute⟩ : file.isDotted = base.isDotted ∧
        file.route = base.route ++ relative.route := by
      rcases hfile with rfl | ⟨rfl, rfl⟩
      · exact ⟨hrelative.isDotted_join base, Path.route_join base hrelative.relative⟩
      · exact ⟨rfl, (List.append_nil _).symm⟩
    rw [if_neg Bool.false_ne_true, if_neg Bool.false_ne_true, hdirect.isDotted_join base, hdot,
      hroute, List.prefix_append_right_inj, Path.components_eq_route (.ofString text),
      Path.components_eq_route relative, hdirect.undotted, hrelative.undotted]
    simp only [true_and, Bool.false_eq_true, if_false]
    constructor
    · rintro (hnone | hprefix)
      · have hempty : (base.join (.ofString text)).route = [] := by
          rw [Path.route, hnone]
          rfl
        rw [Path.route_join base hdirect.relative] at hempty
        rw [(List.append_eq_nil_iff.mp hempty).2]
        exact List.nil_prefix
      · exact hprefix
    · exact .inr

/-! ## The files of a scan -/

/-- A template tree has a name that is longer than the suffix and ends with it. -/
theorem isTreePath_iff {path : Path} :
    isTreePath path = true ↔
      ∃ stem, stem ≠ "" ∧ path.fileName? = some (.ofString (stem ++ treeSuffix)) := by
  unfold isTreePath
  constructor
  · intro h
    split at h
    · rename_i name hname
      obtain ⟨raw, hraw, htext⟩ := Option.bind_eq_some_iff.mp hname
      rw [Bool.and_eq_true, List.isSuffixOf_iff_suffix, decide_eq_true_eq] at h
      obtain ⟨⟨front, hfront⟩, hlength⟩ := h
      have hstem : String.ofList front ++ treeSuffix = name := by
        apply String.toList_injective
        rw [String.toList_append, String.toList_ofList, hfront]
      refine ⟨.ofList front, ?_, by rw [hraw, hstem, RawText.text?_eq_some_iff.mp htext]⟩
      intro hempty
      rw [← hstem, hempty] at hlength
      exact absurd hlength (by decide)
    · cases h
  · rintro ⟨stem, hne, hname⟩
    have hlength : stem.length ≠ 0 := by simpa using hne
    rw [hname, Option.bind_some, RawText.text?_ofString]
    simp only [Bool.and_eq_true, List.isSuffixOf_iff_suffix, decide_eq_true_eq,
      String.toList_append, String.length_append]
    exact ⟨List.suffix_append _ _, by omega⟩

/-- The roots of a scan without patterns are the entrances that exist. -/
theorem walked_iff (hlinks : fs.LinkFree) {base : Path} {includes : List String}
    (hincludes : ∀ text ∈ includes, Glob.hasWildcard text = false) {found : Path} :
    (∃ root ∈ roots fs base includes, .ok found ∈ fs.walk root) ↔
      ∃ entrance ∈ entrances base includes, fs.exists entrance.1 = true ∧
        .ok found ∈ fs.walk entrance.1 := by
  unfold roots entrances
  split
  · simp only [List.mem_singleton, exists_eq_left]
    exact ⟨fun h => ⟨hlinks.exists_of_mem_walk h, h⟩, And.right⟩
  · have hroots : ∀ text ∈ includes, ∀ root, root ∈ rootsOf fs base text ↔
        fs.exists (includePath base text) = true ∧ root = includePath base text := by
      intro text htext root
      rw [rootsOf, includePath]
      simp only [hincludes text htext, Bool.false_eq_true, if_false]
      split
      · simp_all
      · simp_all
    constructor
    · rintro ⟨root, hroot, hmet⟩
      obtain ⟨text, htext, hroot⟩ := List.mem_flatMap.mp hroot
      obtain ⟨hexists, rfl⟩ := (hroots text htext root).mp hroot
      exact ⟨_, List.mem_map_of_mem htext, hexists, hmet⟩
    · rintro ⟨entrance, hentrance, hexists, hmet⟩
      obtain ⟨text, htext, rfl⟩ := List.mem_map.mp hentrance
      exact ⟨_, List.mem_flatMap.mpr ⟨text, htext, (hroots text htext _).mpr ⟨hexists, rfl⟩⟩, hmet⟩

variable {base : String} {includes ignores : List String}

/-- Without patterns among the includes, and without links, a scan lists the template trees that are
files at or below an include that exists and that no ignore excludes as they are written from the
base directory on. -/
theorem mem_files_iff_below (hfs : fs.WellFormed) (hlinks : fs.LinkFree)
    (hincludes : ∀ text ∈ includes, Glob.hasWildcard text = false ∧ Direct (.ofString text))
    (hignores : ∀ text ∈ ignores, Glob.hasWildcard text = false → Direct (.ofString text))
    {file : String} :
    file ∈ (scan fs base includes ignores).files ↔
      fs.isFile (.ofString file) = true ∧
      (∃ stem, stem ≠ "" ∧
        Path.fileName? (.ofString file) = some (.ofString (stem ++ treeSuffix))) ∧
      ∃ entrance ∈ entrances (.ofString base) includes, fs.exists entrance.1 = true ∧
        ∃ names, (∀ name ∈ names, IsName name) ∧ .ofString file = entrance.1.extend names ∧
          ∀ text ∈ ignores, ¬ Excludes text (entrance.2.extend names) := by
  have hdirect := fun text htext => (hincludes text htext).2
  rw [mem_files_iff hfs, walked_iff hlinks fun text htext => (hincludes text htext).1, accepts,
    Bool.and_eq_true, Bool.and_eq_true, isTreePath_iff]
  have hcovers : ∀ (hfile : fs.isFile (.ofString file) = true),
      ∀ entrance ∈ entrances (.ofString base) includes, ∀ names, (∀ name ∈ names, IsName name) →
      .ofString file = entrance.1.extend names →
      ((Ignores.ofTexts (.ofString base) ignores).covers (.ofString base) (.ofString file) = false ↔
        ∀ text ∈ ignores, ¬ Excludes text (entrance.2.extend names)) := by
    intro hfile entrance hentrance names hnames hspelled
    obtain ⟨hrelative, hcases⟩ := spelling_of_entrance hdirect hentrance hnames
    rw [← hspelled] at hcases
    have hend := hfs.not_endsIdle_of_isFile hfile
    rw [← Bool.not_eq_true, Ignores.covers_iff fun text htext hwild =>
      (hignores text htext hwild).relative]
    simp only [not_exists, not_and]
    exact forall₂_congr fun text htext =>
      not_congr (heeds_iff_excludes hrelative hcases hend (hignores text htext))
  constructor
  · rintro ⟨⟨entrance, hentrance, hexists, hmet⟩, ⟨hcovered, hfile⟩, htree⟩
    obtain ⟨names, hnames, hspelled⟩ := hfs.mem_walk hmet
    refine ⟨hfile, htree, entrance, hentrance, hexists, names, hnames, hspelled, ?_⟩
    exact (hcovers hfile entrance hentrance names hnames hspelled).mp (by simpa using hcovered)
  · rintro ⟨hfile, htree, entrance, hentrance, hexists, names, hnames, hspelled, hnone⟩
    have hcovered := (hcovers hfile entrance hentrance names hnames hspelled).mpr hnone
    refine ⟨⟨entrance, hentrance, hexists, ?_⟩, ⟨by simp [hcovered], hfile⟩, htree⟩
    have hroot : entrance.1 ≠ [] := by
      intro hempty
      rw [hempty] at hexists
      cases hexists
    rw [hspelled] at hfile ⊢
    exact hlinks.mem_walk_of_isFile hfs hroot hnames hfile

/-! ## Siblings -/

/-- Two directories of templates of which the name of one begins with that of the other. -/
def siblings : FileSystem where
  root := .directory [(.ofString "templates", .directory
    [(.ofString "cache", .directory [(.ofString "old.ast.json", .file [])]),
      (.ofString "cache2", .directory [(.ofString "new.ast.json", .file [])])])]

theorem siblings_wellFormed : siblings.WellFormed where
  named := by
    have hinner : ∀ name, Path.IsName name → (Entry.directory [(name, .file [])]).Named :=
      fun name hname => .directory (by simpa using hname) (by simpa using .file [])
    refine .directory (by decide) ?_
    simp only [List.forall_mem_singleton]
    refine .directory (by decide) ?_
    simp only [List.forall_mem_cons]
    exact ⟨hinner _ (by decide), hinner _ (by decide), nofun⟩
  working := ⟨_, rfl⟩

theorem siblings_linkFree : siblings.LinkFree := by
  have hinner : ∀ name, (Entry.directory [(name, .file [])]).LinkFree :=
    fun name => .directory (by simpa using .file [])
  refine .directory ?_
  simp only [List.forall_mem_singleton]
  refine .directory ?_
  simp only [List.forall_mem_cons]
  exact ⟨hinner _, hinner _, nofun⟩

/-- Neither an ignored sibling nor a pattern for the directory keeps a file out. -/
theorem mem_files_siblings :
    "./templates/cache2/new.ast.json" ∈
      (scan siblings "." ["templates"] ["templates/cache", "templates/cache?"]).files := by
  refine (mem_files_iff_below siblings_wellFormed siblings_linkFree (by decide) (by decide)).mpr
    ⟨by decide, ⟨"new", by decide, by decide⟩, _, List.mem_singleton_self _,
      by decide, [.ofString "cache2", .ofString "new.ast.json"], by decide,
      by decide +kernel, by decide +kernel⟩

end Scan

end MessageHarvest
