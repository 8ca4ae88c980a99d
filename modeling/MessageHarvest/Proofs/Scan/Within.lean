import MessageHarvest.Proofs.Glob.Within
import MessageHarvest.Proofs.Scan.Found

/-!
# Scans of one directory

A literal include is joined to the base directory as a path, but in front of a pattern the base
directory becomes part of the pattern, and what it has of wildcards and brackets is read as such.

* `Scan.roots_within`: the roots of a scan.
* `Scan.files_within`: a scan finds what the base directory holds and depends on nothing else, if
  the base directory is read literally and no part of a pattern stands for the directory above.
* `Scan.file_outside_scanned`: else files beside the base directory are scanned.
-/

namespace MessageHarvest

namespace Scan

open MessageHarvest.Path (Within)
open FileSystem (Shares)

variable {fs fs' : FileSystem} {base path : Path} {includes ignores : List String}

/-- Includes that name only what the base directory holds. -/
structure StayInside (base : Path) (includes : List String) : Prop where
  relative : ∀ text ∈ includes, Path.isAbsolute (.ofString text) = false
  up_not_mem : ∀ text ∈ includes, .up ∉ Path.steps (.ofString text)
  verbatim : ∀ text ∈ includes, Glob.hasWildcard text = true → Glob.IsVerbatim base
  climbs : ∀ text ∈ includes, Glob.hasWildcard text = true →
    ∀ piece ∈ Path.pieces (.ofString text), Glob.climbs piece = false

section

variable (h : Shares fs fs' base)

include h

theorem rootsOf_within (hbase : base.IsText) (hincludes : StayInside base includes) {text : String}
    (htext : text ∈ includes) :
    rootsOf fs' base text = rootsOf fs base text ∧
      ∀ root ∈ rootsOf fs base text, Within base root := by
  have hrelative := hincludes.relative text htext
  have hup := hincludes.up_not_mem text htext
  have hjoin : Within base (base.join (.ofString text)) := (Within.refl base).join hrelative hup
  unfold rootsOf
  dsimp only
  split
  · rename_i hwild
    exact Glob.expand_within h hbase (hincludes.verbatim text htext hwild)
      (RawText.isText_ofString text) ⟨hrelative, hup, hincludes.climbs text htext hwild⟩
  · rw [FileSystem.«exists», FileSystem.«exists», h.entry_eq hjoin]
    split
    · exact ⟨rfl, fun root hroot => List.mem_singleton.mp hroot ▸ hjoin⟩
    · exact ⟨rfl, List.forall_mem_nil _⟩

theorem roots_within (hbase : base.IsText) (hincludes : StayInside base includes) :
    roots fs' base includes = roots fs base includes ∧
      ∀ root ∈ roots fs base includes, Within base root := by
  unfold roots
  split
  · exact ⟨rfl, fun root hroot => List.mem_singleton.mp hroot ▸ Within.refl base⟩
  · refine ⟨List.flatMap_congr fun text htext => (rootsOf_within h hbase hincludes htext).1,
      fun root hroot => ?_⟩
    obtain ⟨text, htext, hroot⟩ := List.mem_flatMap.mp hroot
    exact (rootsOf_within h hbase hincludes htext).2 root hroot

theorem walk_within (hpath : Within base path) :
    fs'.walk path = fs.walk path ∧ ∀ found, .ok found ∈ fs.walk path → Within base found := by
  refine ⟨?_, fun found hfound => ?_⟩
  · rw [FileSystem.walk, FileSystem.walk, h.linkFree.entryItself_eq, h.linkFree'.entryItself_eq,
      h.entry_eq hpath]
  · obtain ⟨names, hnames, rfl⟩ := h.wellFormed.mem_walk hfound
    exact hpath.extend hnames

theorem accepts_within (ignores : Ignores) (hpath : Within base path) :
    accepts fs' base ignores path = accepts fs base ignores path := by
  rw [accepts, accepts, FileSystem.isFile, FileSystem.isFile, h.entry_eq hpath]

end

/-- Two file systems that have the base directory in common are scanned alike. -/
theorem scan_eq_of_shares {base : String} (h : Shares fs fs' (.ofString base))
    (hincludes : StayInside (.ofString base) includes) :
    scan fs' base includes ignores = scan fs base includes ignores := by
  obtain ⟨hroots, hwithin⟩ := roots_within h (RawText.isText_ofString base) hincludes
  have hmet : (roots fs' (.ofString base) includes).flatMap fs'.walk =
      (roots fs (.ofString base) includes).flatMap fs.walk := by
    rw [hroots]
    exact List.flatMap_congr fun root hroot => (walk_within h (hwithin root hroot)).1
  have haccepts : ∀ path ∈ ((roots fs (.ofString base) includes).flatMap fs.walk).filterMap
      Except.toOption, accepts fs' (.ofString base) (.ofTexts (.ofString base) ignores) path =
        accepts fs (.ofString base) (.ofTexts (.ofString base) ignores) path := by
    intro path hpath
    obtain ⟨outcome, hmem, hpath⟩ := List.mem_filterMap.mp hpath
    obtain ⟨root, hroot, hfound⟩ := List.mem_flatMap.mp hmem
    cases outcome with
    | error e => cases hpath
    | ok found =>
      cases hpath
      exact accepts_within h _ ((walk_within h (hwithin root hroot)).2 _ hfound)
  simp only [scan, hmet, List.filter_congr haccepts]

/-- A scan of a directory that is read literally, or with literal includes only, finds files within
that directory. Two file systems without links in which the directory holds the same are scanned
alike, whatever else they hold. -/
theorem files_within {base : String} (hfs : fs.WellFormed) (hlinks : fs.LinkFree)
    (hrelative : Path.isAbsolute (.ofString base) = false)
    (hdirectory : fs.isDirectory (.ofString base) = true)
    (hincludes : StayInside (.ofString base) includes) :
    (∀ file ∈ (scan fs base includes ignores).files, Within (.ofString base) (.ofString file)) ∧
    ∀ fs' : FileSystem, fs'.WellFormed → fs'.LinkFree →
      fs'.entry (.ofString base) = fs.entry (.ofString base) →
      scan fs' base includes ignores = scan fs base includes ignores := by
  refine ⟨fun file hfile => ?_, fun fs' hfs' hlinks' hsame => ?_⟩
  · have hself := Shares.refl hfs hlinks hrelative hdirectory
    obtain ⟨⟨root, hroot, hfound⟩, -⟩ := (mem_files_iff hfs).mp hfile
    have hwithin := (roots_within hself (RawText.isText_ofString base) hincludes).2 root hroot
    exact (walk_within hself hwithin).2 _ hfound
  · exact scan_eq_of_shares ⟨hfs, hfs', hlinks, hlinks', hrelative, hdirectory, hsame⟩ hincludes

/-! ## A directory with a star in its name -/

/-- A directory of templates whose name is a pattern, and other directories beside it. -/
def starred (beside : List String) : FileSystem where
  root := .directory ((.ofString "t*", .directory [(.ofString "page.ast.json", .file [])]) ::
    beside.map fun name =>
      (.ofString name, .directory [(.ofString "other.ast.json", .file [])]))

theorem starred_wellFormed {beside : List String}
    (hbeside : ∀ name ∈ beside, Path.IsName (.ofString name)) : (starred beside).WellFormed where
  named := by
    have hinner : ∀ name, Path.IsName name → (Entry.directory [(name, .file [])]).Named :=
      fun name hname => .directory (by simpa using hname) (by simpa using .file [])
    refine .directory ?_ ?_
    · rw [List.forall_mem_cons, List.forall_mem_map]
      exact ⟨by decide, hbeside⟩
    · rw [List.forall_mem_cons, List.forall_mem_map]
      exact ⟨hinner _ (by decide), fun name _ => hinner _ (by decide)⟩
  working := ⟨_, rfl⟩

theorem starred_linkFree (beside : List String) : (starred beside).LinkFree := by
  have hinner : ∀ name, (Entry.directory [(name, .file [])]).LinkFree :=
    fun name => .directory (by simpa using .file [])
  refine .directory ?_
  rw [List.forall_mem_cons, List.forall_mem_map]
  exact ⟨hinner _, fun name _ => hinner _⟩

/-- A literal include finds nothing beside the directory. -/
theorem scan_starred_literal :
    scan (starred ["tmp"]) "t*" ["page.ast.json"] [] =
      scan (starred []) "t*" ["page.ast.json"] [] := by
  have hincludes : StayInside (.ofString "t*") ["page.ast.json"] :=
    ⟨by decide, by decide, by decide, by decide⟩
  have hbeside : ∀ name ∈ ([] : List String), Path.IsName (.ofString name) := by decide
  exact (files_within (starred_wellFormed hbeside) (starred_linkFree []) (by decide)
    (by decide) hincludes).2 _ (starred_wellFormed (by decide))
    (starred_linkFree ["tmp"]) rfl

/-- A pattern finds what lies beside it. So does a pattern with a part for the directory above. -/
theorem file_outside_scanned :
    "tmp/other.ast.json" ∈ (scan (starred ["tmp"]) "t*" ["*.ast.json"] []).files ∧
      ¬ Within (.ofString "t*") (.ofString "tmp/other.ast.json") ∧
      scan (starred ["tmp"]) "t*" ["*.ast.json"] [] ≠ scan (starred []) "t*" ["*.ast.json"] [] ∧
      "tmp/../t*/page.ast.json" ∈ (scan (starred ["tmp"]) "tmp" [".*"] []).files := by
  have hfound : "tmp/other.ast.json" ∈ (scan (starred ["tmp"]) "t*" ["*.ast.json"] []).files :=
    mem_inOrder.mpr (by decide +kernel)
  have halone : (scan (starred []) "t*" ["*.ast.json"] []).files = ["t*/page.ast.json"] := by
    decide +kernel
  refine ⟨hfound, ?_, ?_, mem_inOrder.mpr (by decide +kernel)⟩
  · rintro ⟨-, names, hnames⟩
    have hprefix : Path.steps (.ofString "t*") <+: Path.steps (.ofString "tmp/other.ast.json") :=
      ⟨_, hnames.symm⟩
    exact absurd hprefix (by decide)
  · intro hsame
    rw [hsame, halone] at hfound
    exact absurd hfound (by decide)

end Scan

end MessageHarvest
