import MessageHarvest.Path
import Mathlib.Data.List.Basic

/-!
# The route of a path

Two paths that differ only in dots and repeated separators lead along the same names. The `route` of
a path is its components without the leading dot; it is what remains when the spelling is looked
through.

* `Path.pieces` are the segments, a separator at the end aside. Joining paths appends their pieces
  (`Path.pieces_join`), and hence their routes (`Path.route_join`).
* `Path.startsWith_iff`: one path starts with another if their routes do and if both or neither
  begin with a dot.
* `Path.Tidy` paths are determined by their routes but for a dot at the beginning
  (`Path.Tidy.pieces_eq`), and what is left of one after another path is tidy, too
  (`Path.Tidy.stripPrefix?_eq`).
-/

namespace MessageHarvest.Path

/-! ## Segments of longer paths -/

theorem segments_append (p q : Path) :
    segments (p ++ separator :: q) = segments p ++ segments q := by
  induction p with
  | nil => simp [segments]
  | cons g gs ih =>
    obtain ⟨s, ss, hs⟩ := List.exists_cons_of_ne_nil (segments_ne_nil gs)
    by_cases hg : g = separator
    · simp [segments, hg, ih]
    · simp [segments, hg, ih, hs]

theorem segments_of_not_mem {s : RawText} (h : separator ∉ s) : segments s = [s] := by
  induction s with
  | nil => rfl
  | cons g gs ih =>
    have hg : g ≠ separator := fun he => h (he ▸ List.mem_cons_self)
    have hgs : separator ∉ gs := fun hm => h (List.mem_cons_of_mem _ hm)
    simp [segments, hg, ih hgs]

/-- A segment is part of the path and has no separator. -/
theorem mem_segments {p : Path} {s : RawText} (h : s ∈ segments p) : separator ∉ s ∧ s ⊆ p := by
  induction p generalizing s with
  | nil =>
    have hs : s = [] := by simpa [segments] using h
    simp [hs]
  | cons g gs ih =>
    have hkeep : ∀ {t : RawText}, t ∈ segments gs → separator ∉ t ∧ t ⊆ g :: gs := fun ht =>
      ⟨(ih ht).1, List.subset_cons_of_subset g (ih ht).2⟩
    obtain ⟨first, rest, hgs⟩ := List.exists_cons_of_ne_nil (segments_ne_nil gs)
    by_cases hg : g = separator
    · have hs : s = [] ∨ s ∈ segments gs := by simpa [segments, hg] using h
      rcases hs with rfl | hs
      · simp
      · exact hkeep hs
    · have hs : s = g :: first ∨ s ∈ rest := by simpa [segments, hg, hgs] using h
      rcases hs with rfl | hs
      · obtain ⟨hsep, hsubset⟩ := ih (s := first) (by simp [hgs])
        exact ⟨by simp [hsep, Ne.symm hg], List.cons_subset_cons g hsubset⟩
      · exact hkeep (by simp [hgs, hs])

theorem isAbsolute_of_not_mem {s : RawText} (h : separator ∉ s) : isAbsolute s = false := by
  cases s with
  | nil => rfl
  | cons g gs =>
    have hg : g ≠ separator := fun he => h (by simp [he])
    simpa [isAbsolute] using hg

theorem getLast?_segments_concat (p : Path) {g : Glyph} (hg : g ≠ separator) :
    (segments (p ++ [g])).getLast? ≠ some [] := by
  induction p with
  | nil => simp [segments, hg]
  | cons h p ih =>
    obtain ⟨s, ss, hs⟩ := List.exists_cons_of_ne_nil (segments_ne_nil (p ++ [g]))
    rw [hs] at ih
    by_cases hh : h = separator
    · simpa [segments, hh, hs, List.getLast?_cons_cons] using ih
    · cases ss with
      | nil => simp [segments, hh, hs]
      | cons t ts => simpa [segments, hh, hs, List.getLast?_cons_cons] using ih

/-! ## Pieces -/

/-- The segments of a path, but for the empty one after a separator at the end. -/
def pieces (path : Path) : List RawText :=
  if path.segments.getLast? = some [] then path.segments.dropLast else path.segments

theorem pieces_nil : pieces [] = [] := rfl

theorem pieces_concat_separator (p : Path) : pieces (p ++ [separator]) = segments p := by
  have h : segments (p ++ [separator]) = segments p ++ [[]] := segments_append p []
  simp [pieces, h]

/-- A path that ends in no separator has all its segments for pieces. -/
theorem pieces_of_getLast? {p : Path} (hne : p ≠ []) (h : p.getLast? ≠ some separator) :
    pieces p = segments p := by
  obtain ⟨front, g, rfl⟩ : ∃ front g, p = front ++ [g] :=
    ⟨p.dropLast, p.getLast hne, (List.dropLast_concat_getLast hne).symm⟩
  have hg : g ≠ separator := by simpa using h
  simp [pieces, getLast?_segments_concat front hg]

theorem pieces_of_not_mem {s : RawText} (hne : s ≠ []) (h : separator ∉ s) : pieces s = [s] := by
  simp [pieces, segments_of_not_mem h, hne]

theorem segments_eq_pieces (p : Path) : segments p = pieces p ∨ segments p = pieces p ++ [[]] := by
  unfold pieces
  split
  · rename_i h
    obtain ⟨front, hfront⟩ := List.getLast?_eq_some_iff.mp h
    exact .inr (by simp [hfront])
  · exact .inl rfl

/-- What comes before the segments of another path comes before its pieces. -/
theorem pieces_of_segments {p q : Path} {front : List RawText}
    (h : p.segments = front ++ q.segments) : p.pieces = front ++ q.pieces := by
  have hne := segments_ne_nil q
  rw [pieces, pieces, h, List.getLast?_append_of_ne_nil front hne,
    List.dropLast_append_of_ne_nil hne]
  split <;> rfl

theorem pieces_append (p q : Path) :
    pieces (p ++ separator :: q) = segments p ++ pieces q :=
  pieces_of_segments (segments_append p q)

theorem segments_join (p : Path) {q : Path} (hq : q.isAbsolute = false) :
    segments (p.join q) = pieces p ++ segments q := by
  by_cases hp : p = []
  · subst hp
    simp [join, hq, pieces_nil]
  by_cases hlast : p.getLast? = some separator
  · obtain ⟨front, rfl⟩ : ∃ front, p = front ++ [separator] :=
      List.getLast?_eq_some_iff.mp hlast
    have hjoin : (front ++ [separator]).join q = front ++ separator :: q := by simp [join, hq]
    rw [hjoin, segments_append, pieces_concat_separator]
  · have hjoin : p.join q = p ++ separator :: q := by simp [join, hq, hp, hlast]
    rw [hjoin, segments_append, pieces_of_getLast? hp hlast]

/-- Joining paths appends their pieces. -/
theorem pieces_join (p : Path) {q : Path} (hq : q.isAbsolute = false) :
    pieces (p.join q) = pieces p ++ pieces q :=
  pieces_of_segments (segments_join p hq)

theorem pieces_ne_nil {p : Path} (h : p ≠ []) : pieces p ≠ [] := by
  by_cases hlast : p.getLast? = some separator
  · obtain ⟨front, rfl⟩ : ∃ front, p = front ++ [separator] :=
      List.getLast?_eq_some_iff.mp hlast
    rw [pieces_concat_separator]
    exact segments_ne_nil front
  · rw [pieces_of_getLast? h hlast]
    exact segments_ne_nil p

theorem pieces_subset_segments (p : Path) : p.pieces ⊆ p.segments := by
  rcases segments_eq_pieces p with h | h <;> simp [h]

theorem mem_pieces {p : Path} {s : RawText} (h : s ∈ p.pieces) : separator ∉ s ∧ s ⊆ p :=
  mem_segments (pieces_subset_segments p h)

/-! ## Components and the route -/

/-- Whether a path begins with the dot of the directory in which it is met. -/
def isDotted (path : Path) : Bool :=
  path.pieces.head? = some here

/-- The names and upward steps of a path. -/
def steps (path : Path) : List Component :=
  path.pieces.filterMap component?

/-- The components of a path without its dots. -/
def route (path : Path) : List Component :=
  path.components.filter (· ≠ .here)

theorem component?_ne_here {s : RawText} {c : Component} (h : component? s = some c) :
    c ≠ .here ∧ c ≠ .root := by
  unfold component? at h
  split at h
  · cases h
  · split at h <;> cases h <;> exact ⟨nofun, nofun⟩

theorem filterMap_segments (p : Path) : p.segments.filterMap component? = p.steps := by
  have hempty : component? [] = none := rfl
  rcases segments_eq_pieces p with h | h <;> simp [steps, h, hempty]

theorem isAbsolute_iff {p : Path} :
    p.isAbsolute = true ↔ ∃ rest, segments p = [] :: rest ∧ rest ≠ [] := by
  cases p with
  | nil => simp [isAbsolute, segments]
  | cons g gs =>
    obtain ⟨s, ss, hs⟩ := List.exists_cons_of_ne_nil (segments_ne_nil gs)
    by_cases hg : g = separator
    · simp [isAbsolute, segments, hg, hs]
    · simp [isAbsolute, segments, hg, hs]

theorem head?_pieces (p : Path) : p.pieces.head? = if p = [] then none else p.segments.head? := by
  by_cases hp : p = []
  · simp [hp, pieces_nil]
  · rw [if_neg hp]
    obtain ⟨s, ss, hs⟩ := List.exists_cons_of_ne_nil (pieces_ne_nil hp)
    rcases segments_eq_pieces p with h | h <;> simp [h, hs]

theorem isDotted_iff {p : Path} : p.isDotted = true ↔ ∃ rest, segments p = here :: rest := by
  have hhere : here ≠ [] := by simp [here]
  rw [isDotted, decide_eq_true_eq, head?_pieces]
  split
  · rename_i hp
    simp [hp, segments, hhere.symm]
  · obtain ⟨s, ss, hs⟩ := List.exists_cons_of_ne_nil (segments_ne_nil p)
    simp [hs]

theorem not_isDotted_of_isAbsolute {p : Path} (h : p.isAbsolute = true) : p.isDotted = false := by
  obtain ⟨rest, hrest, -⟩ := isAbsolute_iff.mp h
  cases hdot : p.isDotted with
  | false => rfl
  | true =>
    obtain ⟨others, hothers⟩ := isDotted_iff.mp hdot
    simp [hrest, here] at hothers

/-- The first segment of a path decides what it starts from. -/
theorem anchorAndBody_eq (p : Path) :
    p.anchorAndBody =
      if p.isAbsolute then ([separator], p.segments.tail)
      else if p.isDotted then (here, p.segments.tail) else ([], p.segments) := by
  obtain ⟨first, rest, hp⟩ := List.exists_cons_of_ne_nil (segments_ne_nil p)
  have habs : p.isAbsolute = true ↔ first = [] ∧ rest ≠ [] := by
    rw [isAbsolute_iff, hp]
    constructor
    · rintro ⟨others, hothers, hne⟩
      obtain ⟨rfl, rfl⟩ := List.cons.inj hothers
      exact ⟨rfl, hne⟩
    · rintro ⟨rfl, hne⟩
      exact ⟨rest, rfl, hne⟩
  have hdot : p.isDotted = true ↔ first = here := by
    rw [isDotted_iff, hp]
    simp
  simp only [anchorAndBody, hp, habs, hdot, List.tail_cons]

theorem filterMap_body (p : Path) : p.anchorAndBody.2.filterMap component? = p.steps := by
  have hempty : component? [] = none := rfl
  have hhere : component? here = none := rfl
  rw [anchorAndBody_eq, ← filterMap_segments]
  by_cases habs : p.isAbsolute = true
  · obtain ⟨rest, hrest, -⟩ := isAbsolute_iff.mp habs
    simp [habs, hrest, hempty]
  · by_cases hdot : p.isDotted = true
    · obtain ⟨rest, hrest⟩ := isDotted_iff.mp hdot
      simp [habs, hdot, hrest, hhere]
    · simp [habs, hdot]

theorem components_eq (p : Path) :
    p.components =
      (if p.isAbsolute then [.root] else if p.isDotted then [.here] else []) ++ p.steps := by
  have hne : here ≠ [separator] := by decide
  have hne' : ([] : RawText) ≠ here := by decide
  simp only [components, filterMap_body]
  rw [anchorAndBody_eq]
  cases p.isAbsolute <;> cases p.isDotted <;> simp [hne, hne']

theorem isAbsolute_iff_head? {p : Path} : p.isAbsolute = true ↔ p.pieces.head? = some [] := by
  rw [head?_pieces]
  cases p with
  | nil => simp [isAbsolute]
  | cons g gs =>
    obtain ⟨s, ss, hs⟩ := List.exists_cons_of_ne_nil (segments_ne_nil gs)
    by_cases hg : g = separator <;> simp [isAbsolute, segments, hg, hs]

/-- The first piece of a path says whether it is absolute and whether it begins with a dot. -/
theorem start_eq_of_head? {p q : Path} (h : p.pieces.head? = q.pieces.head?) :
    p.isAbsolute = q.isAbsolute ∧ p.isDotted = q.isDotted := by
  constructor
  · rw [Bool.eq_iff_iff, isAbsolute_iff_head?, isAbsolute_iff_head?, h]
  · rw [isDotted, isDotted, h]

theorem head?_pieces_join {p q : Path} (hp : p ≠ []) (hq : q.isAbsolute = false) :
    (p.join q).pieces.head? = p.pieces.head? := by
  obtain ⟨first, rest, hpieces⟩ := List.exists_cons_of_ne_nil (pieces_ne_nil hp)
  rw [pieces_join p hq, hpieces, List.cons_append, List.head?_cons, List.head?_cons]

theorem isAbsolute_join (p : Path) {q : Path} (hq : q.isAbsolute = false) :
    (p.join q).isAbsolute = p.isAbsolute := by
  by_cases hp : p = []
  · simpa [hp, join, hq, isAbsolute] using hq
  · exact (start_eq_of_head? (head?_pieces_join hp hq)).1

theorem eq_of_segments_eq {p q : Path} (h : p.segments = q.segments) : p = q := by
  rw [← ofSegments_segments p, h, ofSegments_segments]

/-- It does not matter which of three paths are joined first. -/
theorem join_join (p : Path) {q r : Path} (hq : q.isAbsolute = false) (hr : r.isAbsolute = false) :
    (p.join q).join r = p.join (q.join r) := by
  apply eq_of_segments_eq
  rw [segments_join _ hr, pieces_join p hq, segments_join p ((isAbsolute_join q hr).trans hq),
    segments_join q hr, List.append_assoc]

theorem isDotted_join {p q : Path} (hp : p ≠ []) (hq : q.isAbsolute = false) :
    (p.join q).isDotted = p.isDotted :=
  (start_eq_of_head? (head?_pieces_join hp hq)).2

theorem join_ne_nil {p : Path} (h : p ≠ []) (q : Path) : p.join q ≠ [] := by
  unfold join
  split
  · rename_i habs
    rintro rfl
    cases habs
  · split <;> simp [h]

theorem route_eq (p : Path) :
    p.route = (if p.isAbsolute then [.root] else []) ++ p.steps := by
  have hsteps : p.steps.filter (· ≠ .here) = p.steps := by
    refine List.filter_eq_self.mpr fun c hc => ?_
    obtain ⟨s, -, hs⟩ := List.mem_filterMap.mp hc
    simp [(component?_ne_here hs).1]
  rw [route, components_eq, List.filter_append, hsteps]
  by_cases habs : p.isAbsolute = true
  · simp [habs]
  · cases p.isDotted <;> simp [habs]

theorem steps_join (p : Path) {q : Path} (hq : q.isAbsolute = false) :
    (p.join q).steps = p.steps ++ q.steps := by
  simp [steps, pieces_join p hq]

/-- Joining paths appends their routes. -/
theorem route_join (p : Path) {q : Path} (hq : q.isAbsolute = false) :
    (p.join q).route = p.route ++ q.route := by
  simp [route_eq, isAbsolute_join p hq, steps_join p hq, hq]

theorem components_eq_route (p : Path) :
    p.components = if p.isDotted then .here :: p.route else p.route := by
  rw [components_eq, route_eq]
  by_cases habs : p.isAbsolute = true
  · simp [habs, not_isDotted_of_isAbsolute habs]
  · simp only [habs]
    cases p.isDotted <;> simp

/-- A path that is a leading dot only has no steps. -/
theorem steps_of_components_here {p : Path} (h : p.components = [.here]) :
    p.isAbsolute = false ∧ p.steps = [] := by
  have hroute : p.route = [] := by rw [route, h]; rfl
  rw [route_eq, List.append_eq_nil_iff] at hroute
  obtain ⟨hroot, hsteps⟩ := hroute
  refine ⟨?_, hsteps⟩
  cases habs : p.isAbsolute with
  | true => rw [habs, if_pos rfl] at hroot; cases hroot
  | false => rfl

theorem here_not_mem_route (p : Path) : .here ∉ p.route := by
  simp [route]

/-- Beside the routes only the leading dots count. -/
theorem startsWith_iff {p start : Path} :
    p.startsWith start = true ↔
      start.components = [] ∨ start.isDotted = p.isDotted ∧ start.route <+: p.route := by
  rw [startsWith, List.isPrefixOf_iff_prefix, components_eq_route, components_eq_route]
  cases hstart : start.isDotted <;> cases hp : p.isDotted
  · simp only [Bool.false_eq_true, if_false, true_and]
    exact ⟨.inr, fun h => h.elim (fun h => h ▸ List.nil_prefix) id⟩
  · simp only [Bool.false_eq_true, if_false, if_true, false_and, or_false]
    constructor
    · intro h
      cases hroute : start.route with
      | nil => rfl
      | cons c cs =>
        rw [hroute, List.cons_prefix_cons] at h
        exact absurd (by simp [hroute, h.1]) (here_not_mem_route start)
    · rintro h
      simp [h]
  · simp only [Bool.false_eq_true, if_true, if_false, reduceCtorEq, false_and, or_false]
    refine iff_of_false (fun h => ?_) nofun
    exact here_not_mem_route p (h.subset List.mem_cons_self)
  · simp [List.cons_prefix_cons]

/-! ## Tidy paths -/

/-- Whether a path has no dots and no repeated separators on the way. It may begin with a dot and
end in one separator. -/
def Tidy (path : Path) : Prop :=
  ∀ piece ∈ path.pieces.tail, isIdle piece = false

instance (path : Path) : Decidable (Tidy path) :=
  inferInstanceAs (Decidable (∀ piece ∈ path.pieces.tail, isIdle piece = false))

/-- The segment that spells a component. -/
def Component.segment : Component → RawText
  | .root => []
  | .here => Path.here
  | .up => Path.up
  | .name s => s

/-- The path with this route, spelled with single separators only. -/
def ofRoute (route : List Component) : Path :=
  ofSegments (route.map Component.segment)

theorem segment_of_component? {s : RawText} {c : Component} (h : component? s = some c) :
    c.segment = s ∧ isIdle s = false := by
  unfold component? at h
  split at h
  · cases h
  · rename_i hs
    split at h
    · rename_i hup
      cases h
      exact ⟨hup.symm, by simpa using hs⟩
    · cases h
      exact ⟨rfl, by simpa using hs⟩

theorem component?_of_not_isIdle {s : RawText} (h : isIdle s = false) :
    ∃ c, component? s = some c ∧ c.segment = s := by
  by_cases hup : s = up
  · refine ⟨.up, ?_, hup.symm⟩
    rw [component?, h, hup]
    rfl
  · exact ⟨.name s, by simp [component?, h, hup], rfl⟩

theorem map_segment_filterMap {ss : List RawText} (h : ∀ s ∈ ss, isIdle s = false) :
    (ss.filterMap component?).map Component.segment = ss := by
  induction ss with
  | nil => rfl
  | cons s ss ih =>
    obtain ⟨c, hc, hcs⟩ := component?_of_not_isIdle (h s List.mem_cons_self)
    simp [hc, hcs, ih fun t ht => h t (List.mem_cons_of_mem _ ht)]

/-- Only a separator or a dot at the beginning makes the first piece of a path idle. -/
theorem isIdle_first {p : Path} {first : RawText} {rest : List RawText}
    (h : p.pieces = first :: rest) :
    isIdle first = true ↔ p.isAbsolute = true ∨ p.isDotted = true := by
  simp [isIdle, isAbsolute_iff_head?, isDotted, h]

/-- Its first piece and its route are all that a tidy path is made of. -/
theorem Tidy.pieces_eq {p : Path} (h : Tidy p) :
    p.pieces = (if p.isAbsolute then [[]] else if p.isDotted then [here] else []) ++
      p.steps.map Component.segment := by
  have habs : p.isAbsolute = true ↔ p.pieces.head? = some [] := isAbsolute_iff_head?
  cases hp : p.pieces with
  | nil =>
    have hrel : ¬ p.isAbsolute = true := by simp [habs, hp]
    simp [hrel, isDotted, steps, hp]
  | cons first rest =>
    have hrest : ∀ s ∈ rest, isIdle s = false := by simpa [Tidy, hp] using h
    have hfirst := isIdle_first hp
    rw [hp, List.head?_cons, Option.some_inj] at habs
    cases hidle : isIdle first with
    | true =>
      have hnone : component? first = none := by simp [component?, hidle]
      have hsteps : p.steps.map Component.segment = rest := by
        simp [steps, hp, hnone, map_segment_filterMap hrest]
      by_cases hempty : first = []
      · simp [habs, hempty, hsteps]
      · have hdot : p.isDotted = true :=
          (hfirst.mp hidle).resolve_left fun h => hempty (habs.mp h)
        have hhere : first = here := by simpa [isDotted, hp] using hdot
        rw [if_neg (fun h => hempty (habs.mp h)), if_pos hdot, hsteps, hhere, List.singleton_append]
    | false =>
      have hall : ∀ s ∈ first :: rest, isIdle s = false := by simpa [hidle] using hrest
      have hstart : ¬ (p.isAbsolute = true ∨ p.isDotted = true) := fun h => by
        rw [hfirst.mpr h] at hidle
        cases hidle
      obtain ⟨hrel, hdot⟩ := not_or.mp hstart
      simp [hrel, hdot, steps, hp, map_segment_filterMap hall]

theorem root_not_mem_steps (p : Path) : .root ∉ p.steps := by
  intro h
  obtain ⟨s, -, hs⟩ := List.mem_filterMap.mp h
  exact (component?_ne_here hs).2 rfl

theorem isAbsolute_and_steps_of_route_eq {p q : Path} (h : p.route = q.route) :
    p.isAbsolute = q.isAbsolute ∧ p.steps = q.steps := by
  have hp := root_not_mem_steps p
  have hq := root_not_mem_steps q
  rw [route_eq, route_eq] at h
  cases habs : p.isAbsolute <;> cases habs' : q.isAbsolute <;> simp [habs, habs'] at h
  · simpa using h
  · exact absurd (by simp [h]) hp
  · exact absurd (by simp [← h]) hq
  · simpa using h

theorem Tidy.pieces_eq_of_route_eq {p q : Path} (hp : Tidy p) (hq : Tidy q)
    (hroute : p.route = q.route) (hdot : p.isDotted = q.isDotted) : p.pieces = q.pieces := by
  obtain ⟨habs, hsteps⟩ := isAbsolute_and_steps_of_route_eq hroute
  rw [hp.pieces_eq, hq.pieces_eq, habs, hsteps, hdot]

theorem eq_of_pieces_eq {p q : Path} (hp : p.getLast? ≠ some separator)
    (hq : q.getLast? ≠ some separator) (h : p.pieces = q.pieces) : p = q := by
  by_cases hp' : p = []
  · by_cases hq' : q = []
    · rw [hp', hq']
    · exact absurd (by rw [← h, hp', pieces_nil]) (pieces_ne_nil hq')
  · by_cases hq' : q = []
    · exact absurd (by rw [h, hq', pieces_nil]) (pieces_ne_nil hp')
    · rw [pieces_of_getLast? hp' hp, pieces_of_getLast? hq' hq] at h
      exact eq_of_segments_eq h

theorem tidy_join {p q : Path} (hne : p ≠ []) (hq : q.isAbsolute = false) :
    Tidy (p.join q) ↔ Tidy p ∧ ∀ piece ∈ q.pieces, isIdle piece = false := by
  rw [Tidy, pieces_join p hq, List.tail_append_of_ne_nil (pieces_ne_nil hne)]
  simp [Tidy, or_imp, forall_and]

/-! ## What is left of a path -/

theorem components_ne_nil {p : Path} (h : p ≠ []) : p.components ≠ [] := by
  obtain ⟨first, rest, hp⟩ := List.exists_cons_of_ne_nil (pieces_ne_nil h)
  rw [components_eq]
  by_cases habs : p.isAbsolute = true
  · simp [habs]
  · by_cases hdot : p.isDotted = true
    · simp [habs, hdot]
    · have hidle : ¬ isIdle first = true := fun h => ((isIdle_first hp).mp h).elim habs hdot
      obtain ⟨c, hc, -⟩ := component?_of_not_isIdle (by simpa using hidle)
      simp [steps, hp, hc]

theorem trimEnd_append (ss : List RawText) {idle : List RawText}
    (h : ∀ s ∈ idle, isIdle s = true) : trimEnd (ss ++ idle) = trimEnd ss := by
  have hback : ∀ s ∈ idle.reverse, isIdle s = true := by simpa using h
  rw [trimEnd, trimEnd, List.reverse_append, List.dropWhile_append_of_pos hback]

theorem trimEnd_dropWhile_append (ss : List RawText) {idle : List RawText}
    (h : ∀ s ∈ idle, isIdle s = true) :
    trimEnd ((ss ++ idle).dropWhile isIdle) = trimEnd (ss.dropWhile isIdle) := by
  induction ss with
  | nil =>
    have happend : (idle ++ []).dropWhile isIdle = [] := List.dropWhile_append_of_pos h
    rw [List.nil_append, ← List.append_nil idle, happend]
    rfl
  | cons s ss ih =>
    cases hs : isIdle s with
    | true => simpa [hs] using ih
    | false => simpa [hs] using trimEnd_append (s :: ss) h

theorem trimEnd_of_getLast? {ss : List RawText}
    (h : ∀ s, ss.getLast? = some s → isIdle s = false) : trimEnd ss = ss := by
  have hback : ss.reverse.dropWhile isIdle = ss.reverse := by
    cases hss : ss.reverse with
    | nil => rfl
    | cons s rest =>
      have hlast : ss.getLast? = some s := by
        rw [← List.head?_reverse, hss]
        rfl
      exact List.dropWhile_cons_of_neg (by simp [h s hlast])
  rw [trimEnd, hback, List.reverse_reverse]

theorem trimEnd_dropWhile {ss : List RawText} (h : ∀ s ∈ ss, isIdle s = false) :
    trimEnd (ss.dropWhile isIdle) = ss := by
  have hfront : ss.dropWhile isIdle = ss := by
    cases ss with
    | nil => rfl
    | cons s ss => exact List.dropWhile_cons_of_neg (by simp [h s List.mem_cons_self])
  rw [hfront, trimEnd_of_getLast? fun s hs => h s (List.mem_of_getLast? hs)]

theorem dropWhile_dropSteps_cons {s : RawText} (h : isIdle s = true) (count : Nat)
    (ss : List RawText) :
    (dropSteps count (s :: ss)).dropWhile isIdle = (dropSteps count ss).dropWhile isIdle := by
  cases count with
  | zero => rw [dropSteps, dropSteps, List.dropWhile_cons_of_pos h]
  | succ count => rw [dropSteps, if_pos h]

/-- The steps in front are dropped with the idle segments among and behind them. -/
theorem dropWhile_dropSteps_append (front ss : List RawText) :
    (dropSteps (front.filterMap component?).length (front ++ ss)).dropWhile isIdle =
      ss.dropWhile isIdle := by
  induction front with
  | nil => rw [List.filterMap_nil, List.length_nil, List.nil_append, dropSteps]
  | cons s front ih =>
    cases hidle : isIdle s with
    | true =>
      have hnone : component? s = none := by simp [component?, hidle]
      rw [List.filterMap_cons_none hnone, List.cons_append, dropWhile_dropSteps_cons hidle, ih]
    | false =>
      obtain ⟨c, hc, -⟩ := component?_of_not_isIdle hidle
      rw [List.filterMap_cons_some hc, List.length_cons, List.cons_append, dropSteps, hidle,
        if_neg nofun, ih]

theorem dropWhile_dropSteps_body (p : Path) (count : Nat) :
    (dropSteps count p.anchorAndBody.2).dropWhile isIdle =
      (dropSteps count p.segments).dropWhile isIdle := by
  rw [anchorAndBody_eq]
  by_cases habs : p.isAbsolute = true
  · obtain ⟨rest, hrest, -⟩ := isAbsolute_iff.mp habs
    rw [if_pos habs, hrest, List.tail_cons, dropWhile_dropSteps_cons rfl]
  by_cases hdot : p.isDotted = true
  · obtain ⟨rest, hrest⟩ := isDotted_iff.mp hdot
    rw [if_neg habs, if_pos hdot, hrest, List.tail_cons, dropWhile_dropSteps_cons (by decide)]
  · rw [if_neg habs, if_neg hdot]

/-- What is left of a path is what comes after the pieces that have the steps of its start. -/
theorem stripPrefix?_of_startsWith {p start : Path} (hstart : start ≠ [])
    (hstarts : p.startsWith start = true) {front rest : List RawText}
    (hfront : front.filterMap component? = start.steps) (hpieces : p.pieces = front ++ rest) :
    p.stripPrefix? start = some (ofSegments (trimEnd (rest.dropWhile isIdle))) := by
  obtain ⟨idle, hidle, hsegments⟩ : ∃ idle, (∀ s ∈ idle, isIdle s = true) ∧
      p.segments = front ++ (rest ++ idle) := by
    rcases segments_eq_pieces p with h | h
    · exact ⟨[], nofun, by rw [h, hpieces, List.append_nil]⟩
    · exact ⟨[[]], by simp [isIdle], by rw [h, hpieces, List.append_assoc]⟩
  have hdrop : (dropSteps start.steps.length p.anchorAndBody.2).dropWhile isIdle =
      (rest ++ idle).dropWhile isIdle := by
    rw [dropWhile_dropSteps_body, hsegments, ← hfront]
    exact dropWhile_dropSteps_append front (rest ++ idle)
  simp only [stripPrefix?, hstarts, if_true, components_ne_nil hstart, if_false, filterMap_body,
    hdrop, trimEnd_dropWhile_append rest hidle]

/-- What is left of a path that has more pieces. -/
theorem stripPrefix?_of_pieces {p start : Path} (hstart : start ≠ []) {rest : List RawText}
    (hpieces : p.pieces = start.pieces ++ rest) :
    p.stripPrefix? start = some (ofSegments (trimEnd (rest.dropWhile isIdle))) := by
  obtain ⟨first, others, hfirst⟩ := List.exists_cons_of_ne_nil (pieces_ne_nil hstart)
  obtain ⟨habs, hdot⟩ : p.isAbsolute = start.isAbsolute ∧ p.isDotted = start.isDotted :=
    start_eq_of_head? (by rw [hpieces, hfirst, List.cons_append, List.head?_cons, List.head?_cons])
  refine stripPrefix?_of_startsWith hstart (startsWith_iff.mpr (.inr ⟨hdot.symm, ?_⟩)) rfl hpieces
  simp [route_eq, habs, steps, hpieces]

theorem component?_segment {p : Path} {c : Component} (h : c ∈ p.steps) :
    component? c.segment = some c ∧ isIdle c.segment = false := by
  obtain ⟨s, -, hs⟩ := List.mem_filterMap.mp h
  obtain ⟨hsegment, hidle⟩ := segment_of_component? hs
  rw [hsegment]
  exact ⟨hs, hidle⟩

theorem filterMap_map_segment (p : Path) :
    (p.steps.map Component.segment).filterMap component? = p.steps := by
  rw [List.filterMap_map]
  conv => rhs; rw [← List.filterMap_some (l := p.steps)]
  exact List.filterMap_congr fun c hc => (component?_segment hc).1

/-- What is left of a tidy path is spelled with single separators only. -/
theorem Tidy.stripPrefix?_eq {p start : Path} (hp : Tidy p) (hstart : start ≠ [])
    (habs : p.isAbsolute = start.isAbsolute) (hdot : start.isDotted = p.isDotted)
    {rest : List Component} (hroute : p.route = start.route ++ rest) :
    p.stripPrefix? start = some (ofRoute rest) := by
  have hstarts : p.startsWith start = true :=
    startsWith_iff.mpr (.inr ⟨hdot, by simp [hroute]⟩)
  have hsteps : p.steps = start.steps ++ rest := by
    rw [route_eq, route_eq, habs, List.append_assoc] at hroute
    exact List.append_cancel_left hroute
  have hrest : ∀ s ∈ rest.map Component.segment, isIdle s = false := by
    intro s hs
    obtain ⟨c, hc, rfl⟩ := List.mem_map.mp hs
    exact (component?_segment (hsteps ▸ List.mem_append_right _ hc)).2
  have hfront : ((if p.isAbsolute then [[]] else if p.isDotted then [here] else []) ++
      start.steps.map Component.segment).filterMap component? = start.steps := by
    rw [List.filterMap_append, filterMap_map_segment]
    cases p.isAbsolute <;> cases p.isDotted <;> rfl
  have hpieces := hp.pieces_eq
  rw [hsteps, List.map_append, ← List.append_assoc] at hpieces
  rw [stripPrefix?_of_startsWith hstart hstarts hfront hpieces, trimEnd_dropWhile hrest, ofRoute]

end MessageHarvest.Path
