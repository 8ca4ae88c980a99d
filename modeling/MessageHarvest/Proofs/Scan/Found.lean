import MessageHarvest.Scan
import MessageHarvest.Proofs.Glob.Spelling

/-!
# What a scan finds

A scan lists files that are reached by names from the roots that its includes name.

* `Scan.pairwise_inOrder`: the files are listed in ascending order, each once, so that the list is
  determined by what is in it (`Scan.eq_inOrder`).
* `Scan.mem_files_iff`: the files of a scan.
* `Scan.root_cases`: the roots are the paths of literal includes and those that patterns stand for.
* `Scan.TidyIncludes.spelling_of_found`: how the files below tidy includes are spelled.
-/

namespace MessageHarvest

namespace Scan

open MessageHarvest.Path (Tidy)

variable {fs : FileSystem}

/-! ## The list of files -/

theorem nodup_eraseDups (texts : List String) : texts.eraseDups.Nodup := by
  induction hlength : texts.length using Nat.strongRecOn generalizing texts with
  | ind length ih =>
    cases texts with
    | nil => simp
    | cons text texts =>
      have hlt : (texts.filter fun t => !t == text).length < length := by
        have := List.length_filter_le (fun t => !t == text) texts
        simp at hlength
        omega
      rw [List.eraseDups_cons, List.nodup_cons]
      exact ⟨by simp [List.mem_eraseDups], ih _ hlt _ rfl⟩

theorem nodup_inOrder (texts : List String) : (inOrder texts).Nodup :=
  (List.mergeSort_perm _ _).nodup_iff.mpr (nodup_eraseDups texts)

/-- Texts in order are in ascending order, each once. -/
theorem pairwise_inOrder (texts : List String) : (inOrder texts).Pairwise (· < ·) := by
  have hsorted : (inOrder texts).Pairwise (· ≤ ·) := by
    have h : (inOrder texts).Pairwise (fun s t => decide (s ≤ t) = true) := by
      apply List.pairwise_mergeSort
      · intro s t u hst htu
        exact decide_eq_true (String.le_trans (of_decide_eq_true hst) (of_decide_eq_true htu))
      · intro s t
        simpa using String.le_total s t
    exact h.imp fun hst => of_decide_eq_true hst
  refine (hsorted.and (nodup_inOrder texts)).imp ?_
  intro s t ⟨hle, hne⟩
  exact String.not_le.mp fun hge => hne (String.le_antisymm hle hge)

/-- There is one list in ascending order of given texts. -/
theorem eq_inOrder {texts texts' : List String} (hsorted : texts.Pairwise (· < ·))
    (h : ∀ text, text ∈ texts ↔ text ∈ texts') : texts = inOrder texts' := by
  have hperm : texts.Perm (inOrder texts') := by
    have hnodup : texts.Nodup := hsorted.imp String.ne_of_lt
    refine (List.perm_ext_iff_of_nodup hnodup (nodup_inOrder texts')).mpr fun text => ?_
    rw [mem_inOrder, h]
  refine hperm.eq_of_pairwise ?_ hsorted (pairwise_inOrder texts')
  exact fun s t _ _ hst hts => absurd (String.lt_trans hst hts) (String.lt_irrefl s)

/-- The same texts give the same list. -/
theorem inOrder_congr {texts texts' : List String} (h : ∀ text, text ∈ texts ↔ text ∈ texts') :
    inOrder texts = inOrder texts' :=
  eq_inOrder (pairwise_inOrder texts) fun text => mem_inOrder.trans (h text)

/-! ## Roots -/

/-- The path that an include is written for. -/
def includePath (base : Path) (text : String) : Path :=
  base.join (.ofString text)

/-- The includes of a scan. Without any, the base directory is one. -/
def effective (includes : List String) : List String :=
  if includes.isEmpty then [""] else includes

theorem isText_includePath {base : Path} (hbase : base.IsText) (text : String) :
    (includePath base text).IsText :=
  Path.isText_join hbase (RawText.isText_ofString text)

theorem isText_of_mem_rootsOf (hfs : fs.WellFormed) {base : Path} (hbase : base.IsText)
    {text : String} {root : Path} (h : root ∈ rootsOf fs base text) : root.IsText := by
  have htext := isText_includePath hbase text
  unfold rootsOf at h
  dsimp only at h
  split at h
  · exact Glob.isText_of_mem_expand hfs htext h
  · split at h
    · exact List.mem_singleton.mp h ▸ htext
    · simp at h

theorem isText_of_mem_roots (hfs : fs.WellFormed) {base : Path} (hbase : base.IsText)
    {includes : List String} {root : Path} (h : root ∈ roots fs base includes) : root.IsText := by
  unfold roots at h
  split at h
  · exact List.mem_singleton.mp h ▸ hbase
  · obtain ⟨text, -, hroot⟩ := List.mem_flatMap.mp h
    exact isText_of_mem_rootsOf hfs hbase hroot

/-- The files of a scan are the accepted paths that are met below its roots. -/
theorem mem_files_iff (hfs : fs.WellFormed) {base : String} {includes ignores : List String}
    {file : String} :
    file ∈ (scan fs base includes ignores).files ↔
      (∃ root ∈ roots fs (.ofString base) includes, .ok (.ofString file) ∈ fs.walk root) ∧
        accepts fs (.ofString base) (.ofTexts (.ofString base) ignores) (.ofString file) := by
  simp only [scan, mem_inOrder, List.mem_map, List.mem_filter, List.mem_filterMap,
    List.mem_flatMap]
  constructor
  · rintro ⟨path, ⟨⟨outcome, ⟨root, hroot, hmet⟩, hpath⟩, haccepts⟩, rfl⟩
    cases outcome with
    | error e => cases hpath
    | ok found =>
      obtain rfl : found = path := by simpa [Except.toOption] using hpath
      have htext : found.IsText := by
        obtain ⟨names, hnames, rfl⟩ := hfs.mem_walk hmet
        exact Path.isText_extend
          (isText_of_mem_roots hfs (RawText.isText_ofString base) hroot) hnames
      rw [htext.ofString_lossy]
      exact ⟨⟨root, hroot, hmet⟩, haccepts⟩
  · rintro ⟨⟨root, hroot, hmet⟩, haccepts⟩
    exact ⟨.ofString file, ⟨⟨_, ⟨root, hroot, hmet⟩, rfl⟩, haccepts⟩, RawText.lossy_ofString file⟩

/-! ## How what is found is spelled -/

/-- A root is the path of a literal include, or one that a pattern stands for. -/
theorem root_cases {base : Path} {includes : List String} {root : Path}
    (h : root ∈ roots fs base includes) :
    ∃ text ∈ effective includes,
      (Glob.hasWildcard text = false ∧ root.pieces = (includePath base text).pieces) ∨
      (Glob.hasWildcard text = true ∧
        root ∈ (Glob.expand fs (RawText.lossy (includePath base text))).toOption.getD []) := by
  unfold roots at h
  split at h
  · rename_i hempty
    obtain rfl := List.mem_singleton.mp h
    have hjoin : (includePath root "").pieces = root.pieces ++ [] := Path.pieces_join root rfl
    exact ⟨"", by simp [effective, hempty], .inl ⟨by decide, by simp [hjoin]⟩⟩
  · rename_i hempty
    obtain ⟨text, htext, hroot⟩ := List.mem_flatMap.mp h
    refine ⟨text, by simpa [effective, hempty] using htext, ?_⟩
    unfold rootsOf at hroot
    dsimp only at hroot
    split at hroot
    · exact .inr ⟨by assumption, hroot⟩
    · rename_i hwild
      split at hroot
      · exact .inl ⟨by simpa using hwild, by rw [List.mem_singleton.mp hroot, includePath]⟩
      · simp at hroot

theorem hasWildcard_includePath (base : Path) {text : String}
    (h : Glob.hasWildcard text = true) :
    Glob.hasWildcard (RawText.lossy (includePath base text)) = true := by
  obtain ⟨c, hc, hwild⟩ := List.any_eq_true.mp h
  refine List.any_eq_true.mpr ⟨c, ?_, hwild⟩
  have hmem : Glyph.char c ∈ includePath base text := by
    have htext : Glyph.char c ∈ RawText.ofString text := List.mem_map_of_mem hc
    unfold includePath Path.join
    split
    · exact htext
    · split <;> simp [htext]
  simpa [RawText.lossy] using ⟨_, hmem, rfl⟩

/-- A literal include hands on what its path begins with. -/
theorem start_of_literal (hfs : fs.WellFormed) {root path found : Path}
    (hroot : root.pieces = path.pieces) (hfound : .ok found ∈ fs.walk root) :
    found.isAbsolute = path.isAbsolute ∧ found.isDotted = path.isDotted := by
  obtain ⟨names, hnames, rfl⟩ := hfs.mem_walk hfound
  obtain ⟨habs, hdot⟩ := Path.start_extend (FileSystem.ne_nil_of_mem_walk hfound) hnames
  obtain ⟨hroot_abs, hroot_dot⟩ := Path.start_eq_of_head? (congrArg List.head? hroot)
  exact ⟨habs.trans hroot_abs, hdot.trans hroot_dot⟩

/-- Includes that are spelled with single separators and with no dots but at the beginning, and in
which no wildcard stands for a dot. -/
structure TidyIncludes (base : Path) (includes : List String) : Prop where
  tidy : ∀ text ∈ effective includes, Tidy (includePath base text)
  avoidsDots : ∀ text ∈ effective includes, Glob.hasWildcard text = true →
    ∀ piece ∈ (includePath base text).pieces, Glob.AvoidsDots piece

/-- Below a tidy include tidy paths are found. A pattern gives a leading dot away. -/
theorem TidyIncludes.spelling_of_found (hfs : fs.WellFormed) {base : Path} (hbase : base.IsText)
    {includes : List String} (h : TidyIncludes base includes) {root found : Path}
    (hroot : root ∈ roots fs base includes) (hfound : .ok found ∈ fs.walk root) :
    ∃ text ∈ effective includes, Tidy found ∧
      found.isAbsolute = (includePath base text).isAbsolute ∧
      found.isDotted = (!Glob.hasWildcard text && (includePath base text).isDotted) := by
  obtain ⟨names, hnames, hextend⟩ := hfs.mem_walk hfound
  have hne := FileSystem.ne_nil_of_mem_walk hfound
  obtain ⟨text, htext, ⟨hwild, hpieces⟩ | ⟨hwild, hexpand⟩⟩ := root_cases hroot
  · have htidy : Tidy root := by
      rw [Tidy, hpieces]
      exact h.tidy text htext
    obtain ⟨habs, hdot⟩ := start_of_literal hfs hpieces hfound
    exact ⟨text, htext, hextend ▸ htidy.extend hne hnames, habs, by simp [hwild, hdot]⟩
  · have hspelled := Glob.spelled_of_mem_expand hfs (hasWildcard_includePath base hwild)
      (isText_includePath hbase text) (h.tidy text htext) (h.avoidsDots text htext hwild) hexpand
    obtain ⟨habs, hdot⟩ := Path.start_extend hne hnames
    refine ⟨text, htext, hextend ▸ hspelled.tidy.extend hne hnames, ?_, ?_⟩
    · rw [hextend, habs, hspelled.isAbsolute]
    · rw [hextend, hdot, hspelled.bare.2, hwild]
      rfl

end Scan

end MessageHarvest
