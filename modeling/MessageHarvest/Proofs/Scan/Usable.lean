import MessageHarvest.Proofs.Config
import MessageHarvest.Proofs.Glob.Parts
import MessageHarvest.Proofs.Scan.Found

/-!
# Configurations that a scan can use

A configuration is checked before it is used, each of its patterns as it is written. A scan puts the
base directory in front of an include and takes the pattern apart at its separators.

* `Config.Usable`: a scan can read all patterns of the configuration.
* `Config.usable_iff`: a configuration without faults is usable unless a separator stands in a
  character class of some include.
-/

namespace MessageHarvest

open Glob (hasWildcard IsVerbatim)

namespace Config

/-- Whether a scan from `base` can read every ignore and every include with wildcards, so that it
passes none of them over. -/
structure Usable (config : Config) (fs : FileSystem) (base : Path) : Prop where
  ignores : ∀ text ∈ config.ignores, hasWildcard text = true →
    ∃ pattern, Glob.Pattern.parse text = .ok pattern
  includes : ∀ text ∈ config.includes, hasWildcard text = true →
    ∃ paths, Glob.expand fs (RawText.lossy (Scan.includePath base text)) = .ok paths

/-- An include can be expanded from a base directory without wildcards if it can be read part by
part. -/
theorem exists_expand_iff_of_parse (fs : FileSystem) {base : String}
    (hbase : IsVerbatim (.ofString base)) {text : String} {pattern : Glob.Pattern}
    (hparse : Glob.Pattern.parse text = .ok pattern) :
    (∃ paths, Glob.expand fs (RawText.lossy (Scan.includePath (.ofString base) text)) = .ok paths) ↔
      pattern.namesSeparator = false := by
  have htext : (Scan.includePath (.ofString base) text).IsText :=
    Scan.isText_includePath (RawText.isText_ofString base) text
  rw [Glob.exists_expand_iff fs htext, Scan.includePath, Glob.reads_join_iff hbase,
    RawText.lossy_ofString]
  exact Glob.Pattern.reads_iff_of_parse hparse

/-- A configuration without faults can be used from a base directory without wildcards if no
separator is written in a class of an include. All its ignores can be used in any case. -/
theorem usable_iff {config : Config} (hvalid : config.fault? = none) (fs : FileSystem)
    {base : String} (hbase : IsVerbatim (.ofString base)) :
    (config.Usable fs (.ofString base) ↔
      ∀ text ∈ config.includes, hasWildcard text = true →
        ∀ pattern ∈ (Glob.Pattern.parse text).toOption, pattern.namesSeparator = false) ∧
    (Ignores.ofTexts (.ofString base) config.ignores).patterns.map Except.ok =
      (config.ignores.filter hasWildcard).map Glob.Pattern.parse := by
  obtain ⟨hignores, hincludes⟩ := fault?_eq_none_iff.mp hvalid
  refine ⟨⟨?_, ?_⟩, ?_⟩
  · intro husable text htext hwild pattern hpattern
    have hparse : Glob.Pattern.parse text = .ok pattern := by
      cases hcase : Glob.Pattern.parse text <;> rw [hcase] at hpattern <;> cases hpattern
      rfl
    exact (exists_expand_iff_of_parse fs hbase hparse).mp (husable.includes text htext hwild)
  · intro hnames
    refine ⟨fun text htext _ => hignores text htext, fun text htext hwild => ?_⟩
    obtain ⟨pattern, hparse⟩ := hincludes text htext hwild
    refine (exists_expand_iff_of_parse fs hbase hparse).mpr (hnames text htext hwild pattern ?_)
    rw [hparse]
    rfl
  · rw [Ignores.ofTexts, List.map_filterMap]
    refine List.filterMap_eq_map_iff_forall_eq_some.mpr fun text htext => ?_
    obtain ⟨pattern, hparse⟩ := hignores text (List.mem_filter.mp htext).1
    rw [hparse]
    rfl

/-! ## A class that holds a separator -/

/-- A directory of templates with an old one. -/
def outdated : FileSystem where
  root := .directory [(.ofString "templates",
    .directory [(.ofString "page-old.ast.json", .file [])])]

/-- Separators may stand beside classes, and in the classes of ignores. -/
theorem usable_with_classes :
    let config : Config :=
      { includes := ["templates/**/page[-_]*", "[/]", "/[a-z]?"], ignores := ["*[/]old", "[!/]*"] }
    config.fault? = none ∧ IsVerbatim (.ofString "proj") ∧
      config.Usable outdated (.ofString "proj") := by
  intro config
  have hvalid : config.fault? = none := by decide +kernel
  have hbase : IsVerbatim (.ofString "proj") := by decide
  exact ⟨hvalid, hbase, (usable_iff hvalid outdated hbase).1.mpr (by decide +kernel)⟩

/-- The class of this include may stand for the hyphen in the name of the file, or for a separator.
The configuration has no fault, but the include is passed over, and the file is not found. -/
theorem include_passed_over :
    let config : Config := { includes := ["templates/page[-/]*"] }
    config.fault? = none ∧ IsVerbatim (.ofString ".") ∧
      ¬ config.Usable outdated (.ofString ".") ∧
      (Glob.Pattern.parse "templates/page[-/]*").toOption.any
        (·.matches "templates/page-old.ast.json".toList) = true ∧
      (scan outdated "." config.includes config.ignores) = { files := [], skipped := 0 } := by
  intro config
  refine ⟨by decide +kernel, by decide, ?_, by decide +kernel, by decide +kernel⟩
  intro husable
  obtain ⟨paths, hpaths⟩ := husable.includes "templates/page[-/]*" (by decide) (by decide)
  have hnone : (Glob.expand outdated (RawText.lossy
      (Scan.includePath (.ofString ".") "templates/page[-/]*"))).toOption = none := by
    decide +kernel
  rw [hpaths] at hnone
  cases hnone

end Config

end MessageHarvest
