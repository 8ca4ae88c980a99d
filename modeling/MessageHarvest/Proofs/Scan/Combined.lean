import MessageHarvest.Proofs.Scan.Literal

/-!
# Scans with several includes and ignores

What a scan finds can be told for each of its includes and each of its ignores on its own: a file is
listed if some include leads to it and no ignore keeps it out.

* `Scan.mem_files_iff_include`, `Scan.mem_files_iff_ignores`: the files of a scan by those of scans
  with one include, and with one ignore.
* `Scan.files_combined`: more includes give the union, more ignores the intersection of the files;
  the order of includes and ignores does not matter, nor how often one is given.
-/

namespace MessageHarvest

namespace Ignores

theorem covers_append (base file : Path) (I J : List String) :
    (ofTexts base (I ++ J)).covers base file =
      ((ofTexts base I).covers base file || (ofTexts base J).covers base file) := by
  simp only [covers, ofTexts, List.filter_append, List.map_append, List.filterMap_append,
    List.any_append]
  ac_rfl

/-- A file is ignored on account of a single ignore. -/
theorem covers_iff_exists {base file : Path} {texts : List String} :
    (ofTexts base texts).covers base file ↔
      ∃ text ∈ texts, (ofTexts base [text]).covers base file := by
  induction texts with
  | nil => simp [covers, ofTexts]
  | cons text texts ih =>
    rw [← List.singleton_append, covers_append, Bool.or_eq_true, ih]
    simp

end Ignores

namespace Scan

variable {fs : FileSystem} {base : String}

theorem roots_of_ne_nil {base : Path} {includes : List String} (h : includes ≠ []) :
    roots fs base includes = includes.flatMap (rootsOf fs base) := by
  rw [roots, if_neg (by simpa using h)]

/-- A file is found on account of a single include. -/
theorem mem_files_iff_include (hfs : fs.WellFormed) {includes : List String} (h : includes ≠ [])
    (ignores : List String) {file : String} :
    file ∈ (scan fs base includes ignores).files ↔
      ∃ text ∈ includes, file ∈ (scan fs base [text] ignores).files := by
  simp only [mem_files_iff hfs, roots_of_ne_nil h, roots_of_ne_nil (List.cons_ne_nil _ []),
    List.mem_flatMap, List.mem_singleton]
  constructor
  · rintro ⟨⟨root, ⟨text, htext, hroot⟩, hmet⟩, haccepts⟩
    exact ⟨text, htext, ⟨root, ⟨text, rfl, hroot⟩, hmet⟩, haccepts⟩
  · rintro ⟨text, htext, ⟨root, ⟨_, rfl, hroot⟩, hmet⟩, haccepts⟩
    exact ⟨⟨root, ⟨_, htext, hroot⟩, hmet⟩, haccepts⟩

theorem accepts_iff_forall {base path : Path} {ignores : List String} :
    accepts fs base (.ofTexts base ignores) path ↔
      accepts fs base (.ofTexts base []) path ∧
        ∀ text ∈ ignores, accepts fs base (.ofTexts base [text]) path := by
  have hnone : (Ignores.ofTexts base []).covers base path = false := rfl
  have hall : (Ignores.ofTexts base ignores).covers base path = false ↔
      ∀ text ∈ ignores, (Ignores.ofTexts base [text]).covers base path = false := by
    rw [← Bool.not_eq_true, Ignores.covers_iff_exists]
    simp only [not_exists, not_and, Bool.not_eq_true]
  simp only [accepts, Bool.and_eq_true, Bool.not_eq_true', hnone, hall]
  constructor
  · rintro ⟨⟨hignores, hfile⟩, htree⟩
    exact ⟨⟨⟨trivial, hfile⟩, htree⟩, fun text htext => ⟨⟨hignores text htext, hfile⟩, htree⟩⟩
  · rintro ⟨⟨⟨-, hfile⟩, htree⟩, hignores⟩
    exact ⟨⟨fun text htext => (hignores text htext).1.1, hfile⟩, htree⟩

/-- A file is left out on account of a single ignore. -/
theorem mem_files_iff_ignores (hfs : fs.WellFormed) (includes ignores : List String)
    {file : String} :
    file ∈ (scan fs base includes ignores).files ↔
      file ∈ (scan fs base includes []).files ∧
        ∀ text ∈ ignores, file ∈ (scan fs base includes [text]).files := by
  simp only [mem_files_iff hfs]
  rw [accepts_iff_forall]
  constructor
  · rintro ⟨hmet, haccepts, hignores⟩
    exact ⟨⟨hmet, haccepts⟩, fun text htext => ⟨hmet, hignores text htext⟩⟩
  · rintro ⟨⟨hmet, haccepts⟩, hignores⟩
    exact ⟨hmet, haccepts, fun text htext => (hignores text htext).2⟩

theorem skipped_append {A B : List String} (hA : A ≠ []) (hB : B ≠ []) (ignores : List String) :
    (scan fs base (A ++ B) ignores).skipped =
      (scan fs base A ignores).skipped + (scan fs base B ignores).skipped := by
  have hAB : A ++ B ≠ [] := List.append_ne_nil_of_left_ne_nil hA B
  simp only [scan, roots_of_ne_nil hA, roots_of_ne_nil hB, roots_of_ne_nil hAB,
    List.flatMap_append, List.countP_append]

/-- The files depend only on which includes and which ignores are given. -/
theorem files_congr (hfs : fs.WellFormed) {includes includes' ignores ignores' : List String}
    (hincludes : ∀ text, text ∈ includes ↔ text ∈ includes')
    (hignores : ∀ text, text ∈ ignores ↔ text ∈ ignores') :
    (scan fs base includes ignores).files = (scan fs base includes' ignores').files := by
  have hmem : ∀ file, file ∈ (scan fs base includes ignores).files ↔
      file ∈ (scan fs base includes' ignores').files := by
    intro file
    calc file ∈ (scan fs base includes ignores).files
        ↔ file ∈ (scan fs base includes ignores').files := by
          rw [mem_files_iff_ignores hfs, mem_files_iff_ignores hfs includes ignores']
          simp only [hignores]
      _ ↔ file ∈ (scan fs base includes' ignores').files := by
          have hnil : includes = [] ↔ includes' = [] := by
            simp only [List.eq_nil_iff_forall_not_mem, hincludes]
          by_cases hempty : includes = []
          · rw [hempty, hnil.mp hempty]
          · rw [mem_files_iff_include hfs hempty, mem_files_iff_include hfs (mt hnil.mpr hempty)]
            simp only [hincludes]
  exact inOrder_congr fun file => mem_inOrder.symm.trans ((hmem file).trans mem_inOrder)

/-- More includes give the union of the files and more ignores the intersection, and what could not
be looked at is counted for each include. So the files depend neither on the order of includes and
ignores nor on how often one is given, a further ignore adds none and a further include removes
none. -/
theorem files_combined (hfs : fs.WellFormed) (base : String) {A B : List String} (hA : A ≠ [])
    (hB : B ≠ []) (I J : List String) :
    (∀ file, file ∈ (scan fs base (A ++ B) I).files ↔
      file ∈ (scan fs base A I).files ∨ file ∈ (scan fs base B I).files) ∧
    (scan fs base (A ++ B) I).skipped = (scan fs base A I).skipped + (scan fs base B I).skipped ∧
    (∀ includes file, file ∈ (scan fs base includes (I ++ J)).files ↔
      file ∈ (scan fs base includes I).files ∧ file ∈ (scan fs base includes J).files) ∧
    (∀ includes includes' ignores ignores' : List String,
      (∀ text, text ∈ includes ↔ text ∈ includes') → (∀ text, text ∈ ignores ↔ text ∈ ignores') →
      (scan fs base includes ignores).files = (scan fs base includes' ignores').files) ∧
    (∀ includes, (scan fs base includes (I ++ J)).files ⊆ (scan fs base includes I).files) ∧
    (scan fs base A I).files ⊆ (scan fs base (A ++ B) I).files := by
  have hunion : ∀ file, file ∈ (scan fs base (A ++ B) I).files ↔
      file ∈ (scan fs base A I).files ∨ file ∈ (scan fs base B I).files := by
    intro file
    have hAB : A ++ B ≠ [] := List.append_ne_nil_of_left_ne_nil hA B
    rw [mem_files_iff_include hfs hAB, mem_files_iff_include hfs hA, mem_files_iff_include hfs hB]
    simp only [List.mem_append, or_and_right, exists_or]
  have hintersection : ∀ includes file, file ∈ (scan fs base includes (I ++ J)).files ↔
      file ∈ (scan fs base includes I).files ∧ file ∈ (scan fs base includes J).files := by
    intro includes file
    rw [mem_files_iff_ignores hfs includes (I ++ J), mem_files_iff_ignores hfs includes I,
      mem_files_iff_ignores hfs includes J, List.forall_mem_append]
    exact and_and_left
  refine ⟨hunion, skipped_append hA hB I, hintersection, ?_, ?_, ?_⟩
  · exact fun _ _ _ _ hincludes hignores => files_congr hfs hincludes hignores
  · exact fun includes file hfile => ((hintersection includes file).mp hfile).1
  · exact fun file hfile => (hunion file).mpr (.inl hfile)

/-- An include that leads nowhere and an ignore that is no pattern take nothing away. -/
theorem files_combined_siblings :
    let A := ["cache"]
    let B := ["cache?", "lost"]
    siblings.WellFormed ∧ A ≠ [] ∧ B ≠ [] ∧
      "templates/cache2/new.ast.json" ∈
        (scan siblings "templates" (A ++ B) (["*/old.*"] ++ ["[*"])).files ∧
      "templates/cache/old.ast.json" ∉
        (scan siblings "templates" (A ++ B) (["*/old.*"] ++ ["[*"])).files := by
  intro A B
  have hA : A ≠ [] := by simp [A]
  have hB : B ≠ [] := by simp [B]
  obtain ⟨hunion, -, hintersection, -⟩ :=
    files_combined siblings_wellFormed "templates" hA hB ["*/old.*"] ["[*"]
  refine ⟨siblings_wellFormed, hA, hB, (hintersection _ _).mpr ⟨(hunion _).mpr (.inr ?_), ?_⟩, ?_⟩
  · exact mem_inOrder.mpr (by decide +kernel)
  · exact mem_inOrder.mpr (by decide +kernel)
  · intro hold
    have hnot : "templates/cache/old.ast.json" ∈
        (scan siblings "templates" (A ++ B) ["*/old.*"]).files := ((hintersection _ _).mp hold).1
    revert hnot
    rw [scan, mem_inOrder]
    decide +kernel

end Scan

end MessageHarvest
