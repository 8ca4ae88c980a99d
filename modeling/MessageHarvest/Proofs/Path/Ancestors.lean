import MessageHarvest.Proofs.Path.Route

/-!
# The directories above a path

Taking away the last step of a path again and again leads up through its ancestors, as far as the
spelling goes: a relative path ends at the empty path, an absolute one at the root.

* `Path.exists_of_parent?`: the parent of a path has all its components but the last.
* `Path.ancestors` lists a path and the directories above it, the nearest first.
-/

namespace MessageHarvest.Path

/-! ## Segments put together -/

theorem ofSegments_singleton (s : RawText) : ofSegments [s] = s := by
  simp [ofSegments, List.intercalate]

theorem ofSegments_cons (s : RawText) {rest : List RawText} (h : rest ≠ []) :
    ofSegments (s :: rest) = s ++ separator :: ofSegments rest := by
  obtain ⟨t, rest, rfl⟩ := List.exists_cons_of_ne_nil h
  simp [ofSegments, List.intercalate]

theorem segments_ofSegments {ss : List RawText} (hne : ss ≠ []) (h : ∀ s ∈ ss, separator ∉ s) :
    segments (ofSegments ss) = ss := by
  induction ss with
  | nil => exact absurd rfl hne
  | cons s ss ih =>
    have hs := segments_of_not_mem (h s List.mem_cons_self)
    cases ss with
    | nil => rwa [ofSegments_singleton]
    | cons t ss =>
      have hrest := ih nofun fun u hu => h u (List.mem_cons_of_mem _ hu)
      rw [ofSegments_cons s (List.cons_ne_nil t ss), segments_append, hs, hrest,
        List.singleton_append]

theorem filterMap_segments_ofSegments {ss : List RawText} (h : ∀ s ∈ ss, separator ∉ s) :
    (segments (ofSegments ss)).filterMap component? = ss.filterMap component? := by
  by_cases hne : ss = []
  · subst hne
    rfl
  · rw [segments_ofSegments hne h]

variable {ss : List RawText}

theorem components_assemble_root (h : ∀ s ∈ ss, separator ∉ s) :
    components (assemble [separator] ss) = .root :: ss.filterMap component? := by
  have hpath : assemble [separator] ss = separator :: ofSegments ss := by
    rw [assemble, if_neg (fun h => absurd h.1 (by decide)), List.singleton_append]
  have habs : isAbsolute (separator :: ofSegments ss) = true := by simp [isAbsolute]
  rw [hpath, components_eq, if_pos habs, ← filterMap_segments, segments, if_pos rfl,
    ← filterMap_segments_ofSegments h]
  rfl

theorem components_assemble_here (h : ∀ s ∈ ss, separator ∉ s) :
    components (assemble here ss) = .here :: ss.filterMap component? := by
  have hsegments : segments (assemble here ss) = here :: ss := by
    by_cases hne : ss = []
    · subst hne
      rfl
    · rw [assemble, if_pos ⟨rfl, hne⟩, segments_append, segments_ofSegments hne h,
        segments_of_not_mem (by decide), List.singleton_append]
  have hdot : isDotted (assemble here ss) = true := isDotted_iff.mpr ⟨ss, hsegments⟩
  have habs : ¬ isAbsolute (assemble here ss) = true := fun habs => by
    rw [not_isDotted_of_isAbsolute habs] at hdot
    cases hdot
  rw [components_eq, if_neg habs, if_pos hdot, ← filterMap_segments, hsegments]
  rfl

theorem components_assemble_nil (h : ∀ s ∈ ss, separator ∉ s) (hempty : ss.head? ≠ some [])
    (hhere : ss.head? ≠ some here) : components (assemble [] ss) = ss.filterMap component? := by
  have hpath : assemble [] ss = ofSegments ss := by
    rw [assemble, if_neg (by simp [here]), List.nil_append]
  rw [hpath]
  by_cases hne : ss = []
  · subst hne
    rfl
  have hsegments := segments_ofSegments hne h
  have habs : ¬ isAbsolute (ofSegments ss) = true := by
    rw [isAbsolute_iff, hsegments]
    rintro ⟨rest, rfl, -⟩
    exact hempty rfl
  have hdot : ¬ isDotted (ofSegments ss) = true := by
    rw [isDotted_iff, hsegments]
    rintro ⟨rest, rfl⟩
    exact hhere rfl
  rw [components_eq, if_neg habs, if_neg hdot, ← filterMap_segments, hsegments, List.nil_append]

/-- A path that is made of fewer segments is the beginning of one that is made of more. -/
theorem prefix_ofSegments {ss ts : List RawText} (h : ss <+: ts) :
    ofSegments ss <+: ofSegments ts := by
  obtain ⟨rest, rfl⟩ := h
  induction ss with
  | nil => exact List.nil_prefix
  | cons s ss ih =>
    by_cases hss : ss = []
    · rw [hss, ofSegments_singleton, List.singleton_append]
      cases rest with
      | nil => exact ⟨[], by rw [List.append_nil, ofSegments_singleton]⟩
      | cons t rest =>
        rw [ofSegments_cons s (List.cons_ne_nil t rest)]
        exact List.prefix_append s _
    · rw [List.cons_append, ofSegments_cons s hss,
        ofSegments_cons s (List.append_ne_nil_of_left_ne_nil hss rest)]
      exact (List.prefix_append_right_inj s).mpr (List.cons_prefix_cons.mpr ⟨rfl, ih⟩)

theorem prefix_assemble (anchor : RawText) {body longer : List RawText} (h : body <+: longer) :
    assemble anchor body <+: assemble anchor longer := by
  have hplain := (List.prefix_append_right_inj anchor).mpr (prefix_ofSegments h)
  rw [assemble, assemble]
  split
  · rename_i hbody
    rw [if_pos ⟨hbody.1, fun hnil => hbody.2 (List.prefix_nil.mp (hnil ▸ h))⟩]
    exact (List.prefix_append_right_inj here).mpr
      (List.cons_prefix_cons.mpr ⟨rfl, prefix_ofSegments h⟩)
  · rename_i hbody
    split
    · rename_i hlonger
      obtain rfl : body = [] := Classical.byContradiction fun hne => hbody ⟨hlonger.1, hne⟩
      rw [hlonger.1]
      exact List.prefix_append here _
    · exact hplain

/-- A path is made of its anchor and what comes after it. -/
theorem assemble_anchorAndBody (path : Path) :
    assemble path.anchorAndBody.1 path.anchorAndBody.2 = path := by
  have hroot : ([separator] : RawText) ≠ here := by decide
  have hnone : ([] : RawText) ≠ here := by decide
  have hpath := ofSegments_segments path
  rw [anchorAndBody_eq]
  by_cases habs : path.isAbsolute = true
  · obtain ⟨rest, hrest, hne⟩ := isAbsolute_iff.mp habs
    rw [hrest, ofSegments_cons [] hne, List.nil_append] at hpath
    rw [if_pos habs, hrest, assemble, if_neg (fun h => hroot h.1), List.tail_cons,
      List.singleton_append, hpath]
  by_cases hdot : path.isDotted = true
  · obtain ⟨rest, hrest⟩ := isDotted_iff.mp hdot
    rw [if_neg habs, if_pos hdot, hrest, assemble, List.tail_cons]
    by_cases hne : rest = []
    · rw [if_neg (fun h => h.2 hne), ← hpath, hrest, hne]
      rfl
    · rw [if_pos ⟨rfl, hne⟩, ← ofSegments_cons here hne, ← hrest, hpath]
  · rw [if_neg habs, if_neg hdot, assemble, if_neg (fun h => hnone h.1), List.nil_append, hpath]

/-! ## Trimming -/

theorem exists_trimEnd (ss : List RawText) :
    ∃ idle, (∀ s ∈ idle, isIdle s = true) ∧ ss = trimEnd ss ++ idle := by
  refine ⟨(ss.reverse.takeWhile isIdle).reverse, fun s hs => ?_, ?_⟩
  · exact List.all_eq_true.mp List.all_takeWhile s (List.mem_reverse.mp hs)
  · rw [trimEnd, ← List.reverse_append, List.takeWhile_append_dropWhile, List.reverse_reverse]

theorem filterMap_trimEnd (ss : List RawText) :
    (trimEnd ss).filterMap component? = ss.filterMap component? := by
  obtain ⟨idle, hidle, heq⟩ := exists_trimEnd ss
  have hnone : idle.filterMap component? = [] := by
    refine List.filterMap_eq_nil_iff.mpr fun s hs => ?_
    rw [component?, if_pos (hidle s hs)]
  conv => rhs; rw [heq, List.filterMap_append, hnone, List.append_nil]

/-- What is trimmed ends in a step. -/
theorem isIdle_of_trimEnd_eq {init : List RawText} {last : RawText}
    (h : trimEnd ss = init ++ [last]) : isIdle last = false := by
  have hback : ss.reverse.dropWhile isIdle = last :: init.reverse := by
    have hreverse := congrArg List.reverse h
    rwa [trimEnd, List.reverse_reverse, List.reverse_append, List.reverse_singleton,
      List.singleton_append] at hreverse
  have hhead := List.head?_dropWhile_not isIdle ss.reverse
  rw [hback] at hhead
  exact hhead

theorem prefix_trimEnd (ss : List RawText) : trimEnd ss <+: ss := by
  obtain ⟨idle, -, heq⟩ := exists_trimEnd ss
  exact ⟨idle, heq.symm⟩

/-! ## Parents -/

/-- The component that a path starts with on account of its anchor. -/
def lead (path : Path) : List Component :=
  if path.isAbsolute then [.root] else if path.isDotted then [.here] else []

theorem lead_of_anchor {path : Path} (h : path.anchorAndBody.1 = here) : path.lead = [.here] := by
  have hroot : ([separator] : RawText) ≠ here := by decide
  have hnone : ([] : RawText) ≠ here := by decide
  rw [anchorAndBody_eq] at h
  rw [lead]
  by_cases habs : path.isAbsolute = true
  · rw [if_pos habs] at h
    exact absurd h hroot
  · by_cases hdot : path.isDotted = true
    · rw [if_neg habs, if_pos hdot]
    · rw [if_neg habs, if_neg hdot] at h
      exact absurd h hnone

/-- A path that is cut short starts as the whole path does. -/
theorem components_assemble {path : Path} (h : ss <+: path.anchorAndBody.2) :
    components (assemble path.anchorAndBody.1 ss) = path.lead ++ ss.filterMap component? := by
  have hsegments : ∀ {body}, body ⊆ path.segments → ss <+: body → ∀ s ∈ ss, separator ∉ s :=
    fun hbody hcut s hs => (mem_segments (hbody (hcut.subset hs))).1
  rw [anchorAndBody_eq] at h ⊢
  rw [lead]
  by_cases habs : path.isAbsolute = true
  · simp only [if_pos habs] at h ⊢
    exact components_assemble_root (hsegments (fun _ => List.mem_of_mem_tail) h)
  by_cases hdot : path.isDotted = true
  · simp only [if_neg habs, if_pos hdot] at h ⊢
    exact components_assemble_here (hsegments (fun _ => List.mem_of_mem_tail) h)
  simp only [if_neg habs, if_neg hdot, List.nil_append] at h ⊢
  obtain ⟨rest, hrest⟩ := h
  by_cases hempty : ss = [[]]
  · subst hempty
    rfl
  refine components_assemble_nil (hsegments (List.Subset.refl _) ⟨rest, hrest⟩) ?_ ?_
  · intro hhead
    obtain ⟨more, rfl⟩ := List.head?_eq_some_iff.mp hhead
    refine habs (isAbsolute_iff.mpr ⟨more ++ rest, hrest.symm, fun hnone => hempty ?_⟩)
    rw [(List.append_eq_nil_iff.mp hnone).1]
  · intro hhead
    obtain ⟨more, rfl⟩ := List.head?_eq_some_iff.mp hhead
    exact hdot (isDotted_iff.mpr ⟨more ++ rest, hrest.symm⟩)

/-- The parent of a path has all its components but the last. -/
theorem exists_of_parent? {path parent : Path} (h : path.parent? = some parent) :
    ∃ last, path.components = parent.components ++ [last] := by
  have hpath : path.components =
      path.lead ++ (trimEnd path.anchorAndBody.2).filterMap component? := by
    rw [filterMap_trimEnd, filterMap_body, components_eq, lead]
  unfold parent? at h
  dsimp only at h
  split at h
  · rename_i hnone
    rw [hnone, List.filterMap_nil, List.append_nil] at hpath
    split at h
    · rename_i hanchor
      cases h
      exact ⟨.here, hpath.trans (lead_of_anchor hanchor)⟩
    · cases h
  · rename_i s ss htrim
    obtain rfl := Option.some.inj h
    have hne : s :: ss ≠ [] := nofun
    have hconcat := (List.dropLast_concat_getLast hne).symm
    obtain ⟨last, hlast, -⟩ :=
      component?_of_not_isIdle (isIdle_of_trimEnd_eq (htrim.trans hconcat))
    have hcut : trimEnd (s :: ss).dropLast <+: path.anchorAndBody.2 :=
      (prefix_trimEnd _).trans ((List.dropLast_prefix _).trans (htrim ▸ prefix_trimEnd _))
    refine ⟨last, ?_⟩
    rw [components_assemble hcut, filterMap_trimEnd, hpath, htrim]
    conv => lhs; rw [hconcat]
    rw [List.filterMap_append, List.filterMap_cons_some hlast, List.filterMap_nil,
      List.append_assoc]

/-- The parent of a path is its beginning. -/
theorem prefix_of_parent? {path parent : Path} (h : path.parent? = some parent) :
    parent <+: path := by
  have hpath := assemble_anchorAndBody path
  unfold parent? at h
  dsimp only at h
  split at h
  · split at h
    · cases h
      exact List.nil_prefix
    · cases h
  · rename_i s ss htrim
    obtain rfl := Option.some.inj h
    have hcut : trimEnd (s :: ss).dropLast <+: path.anchorAndBody.2 :=
      (prefix_trimEnd _).trans ((List.dropLast_prefix _).trans (htrim ▸ prefix_trimEnd _))
    conv => rhs; rw [← hpath]
    exact prefix_assemble _ hcut

/-- A path without a parent has no steps. -/
theorem steps_of_parent?_eq_none {path : Path} (h : path.parent? = none) : path.steps = [] := by
  rw [← filterMap_body, ← filterMap_trimEnd]
  unfold parent? at h
  dsimp only at h
  split at h
  · rename_i htrim
    rw [htrim, List.filterMap_nil]
  · cases h

/-- The parent of a relative path lacks its last step, or only its leading dot. -/
theorem steps_of_parent? {path parent : Path} (hrelative : path.isAbsolute = false)
    (h : path.parent? = some parent) : parent.isAbsolute = false ∧
      (path.steps = parent.steps ∨ ∃ last, path.steps = parent.steps ++ [last]) := by
  obtain ⟨last, hlast⟩ := exists_of_parent? h
  have hparent : parent.isAbsolute = false := by
    rw [← Bool.not_eq_true]
    intro habs
    have hroot : .root ∈ path.components := by simp [hlast, components_eq parent, habs]
    rw [components_eq, hrelative] at hroot
    cases path.isDotted <;> simp [root_not_mem_steps] at hroot
  have hsteps : path.steps = path.route := by simp [route_eq, hrelative]
  have hsteps' : parent.steps = parent.route := by simp [route_eq, hparent]
  refine ⟨hparent, ?_⟩
  rw [hsteps, hsteps', route, hlast, List.filter_append, ← route]
  by_cases hhere : last = .here
  · exact .inl (by simp [hhere])
  · exact .inr ⟨last, by simp [hhere]⟩

theorem length_filterMap_segments_le (path : Path) :
    (path.segments.filterMap component?).length ≤ path.length := by
  have hcons : ∀ (s : RawText) (ss : List RawText),
      ((s :: ss).filterMap component?).length ≤ (ss.filterMap component?).length + 1 ∧
        (ss.filterMap component?).length ≤ ((s :: ss).filterMap component?).length := by
    intro s ss
    cases hs : component? s with
    | none => simp [hs]
    | some c => simp [hs]
  induction path with
  | nil => exact Nat.le_of_eq rfl
  | cons g gs ih =>
    obtain ⟨s, ss, hs⟩ := List.exists_cons_of_ne_nil (segments_ne_nil gs)
    rw [hs] at ih
    simp only [segments, hs, List.length_cons]
    split
    · have hempty : component? [] = none := rfl
      rw [List.filterMap_cons_none hempty]
      omega
    · have hmore := (hcons (g :: s) ss).1
      have hless := (hcons s ss).2
      omega

/-- The anchor of a path takes a character of its own. -/
theorem exists_of_lead {path : Path} (h : path.lead ≠ []) :
    ∃ g gs, path = g :: gs ∧
      path.segments.filterMap component? = (segments gs).filterMap component? := by
  have hempty : component? [] = none := rfl
  have hhere : component? here = none := rfl
  cases path with
  | nil => exact absurd rfl h
  | cons g gs =>
    refine ⟨g, gs, rfl, ?_⟩
    rw [lead] at h
    by_cases habs : isAbsolute (g :: gs) = true
    · have hg : g = separator := by simpa [isAbsolute] using habs
      rw [segments, if_pos hg, List.filterMap_cons_none hempty]
    rw [if_neg habs] at h
    by_cases hdot : isDotted (g :: gs) = true
    · obtain ⟨rest, hrest⟩ := isDotted_iff.mp hdot
      obtain ⟨s, ss, hs⟩ := List.exists_cons_of_ne_nil (segments_ne_nil gs)
      have hg : g ≠ separator := by simpa [isAbsolute] using habs
      obtain ⟨hfirst, hss⟩ : g :: s = here ∧ ss = rest := by simpa [segments, hg, hs] using hrest
      have hnil : s = [] := (List.cons.inj hfirst).2
      rw [hrest, hs, hss, hnil, List.filterMap_cons_none hempty, List.filterMap_cons_none hhere]
    · exact absurd (if_neg hdot) h

/-- A path has no more components than characters. -/
theorem length_components_le (path : Path) : path.components.length ≤ path.length := by
  have hcomponents : path.components = path.lead ++ path.segments.filterMap component? := by
    rw [filterMap_segments, components_eq, lead]
  have hlead : path.lead.length ≤ 1 := by
    rw [lead]
    split
    · exact Nat.le_refl 1
    · split <;> simp
  rw [hcomponents, List.length_append]
  by_cases hnone : path.lead = []
  · rw [hnone, List.length_nil, Nat.zero_add]
    exact length_filterMap_segments_le path
  · obtain ⟨g, gs, rfl, hsteps⟩ := exists_of_lead hnone
    have hrest := length_filterMap_segments_le gs
    rw [hsteps, List.length_cons]
    omega

/-! ## Ancestors -/

/-- A path and the directories above it, the nearest first. -/
def ancestors (path : Path) : List Path :=
  path :: match _h : path.parent? with
    | none => []
    | some parent => parent.ancestors
termination_by path.components.length
decreasing_by
  obtain ⟨last, hlast⟩ := exists_of_parent? _h
  rw [hlast, List.length_append]
  exact Nat.lt_succ_self _

theorem ancestors_eq (path : Path) : path.ancestors = path :: path.ancestors.tail := by
  rw [ancestors, List.tail_cons]

theorem ancestors_of_parent? {path parent : Path} (h : path.parent? = some parent) :
    path.ancestors = path :: parent.ancestors := by
  rw [ancestors]
  split
  · rename_i hnone
    rw [hnone] at h
    cases h
  · rename_i other hother
    rw [hother] at h
    obtain rfl := Option.some.inj h
    rfl

theorem ancestors_of_parent?_eq_none {path : Path} (h : path.parent? = none) :
    path.ancestors = [path] := by
  rw [ancestors]
  split
  · rfl
  · rename_i other hother
    rw [hother] at h
    cases h

end MessageHarvest.Path
