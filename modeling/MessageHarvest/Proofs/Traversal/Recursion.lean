import MessageHarvest.Proofs.Traversal.Complete
import MessageHarvest.Proofs.Tree.Reload

/-!
# How deep a pass goes

A pass through a node makes a pass through each of its parts, so that as many passes are under way
at a time as there are levels of nodes. The text of a tree bounds its levels, and with them the
passes: no file leads a traversal deeper than 64 passes inside each other.

* `Tree.passWithin` is a pass that gives up where it would go deeper than it is allowed to.
* `Tree.passWithin_skip`: a pass that skips faults goes through all levels, and no deeper.
* `Tree.passWithin_of_loaded`: for a tree that was loaded, 64 levels are enough.
-/

namespace MessageHarvest.Tree

variable {σ : Type} [Visitor σ]

/-! ## Passes of limited depth -/

/-- Goes on into a part of a node, unless the pass has been halted. -/
def goInto (inner : Pass σ → Tree → Option (Pass σ)) (p : Pass σ) (part : Tree) :
    Option (Pass σ) :=
  match p.halt with
  | some _ => some p
  | none => inner p part

/-- Leads the visitor of `p` through the tree with at most `calls` passes inside each other, or
gives nothing if it comes to a node for which one more is needed. -/
def passWithin (policy : FaultPolicy) (registry : Registry) :
    (calls : Nat) → Pass σ → Tree → Option (Pass σ)
  | 0, _, _ => none
  | calls + 1, p, t => do
    let entered := p.step policy registry ⟨.enter, t⟩
    let passed ← t.children.foldlM (goInto (passWithin policy registry calls)) entered
    return passed.step policy registry ⟨.leave, t⟩

variable (policy : FaultPolicy) (registry : Registry)

theorem passAll_eq (p : Pass σ) (ts : List Tree) :
    passAll policy registry p ts = ts.foldl (pass policy registry) p := by
  induction ts generalizing p with
  | nil => rfl
  | cons t ts ih => rw [passAll, ih, List.foldl_cons]

/-- A node is entered, its parts are passed through in order, and it is left. -/
theorem pass_eq (p : Pass σ) (t : Tree) :
    pass policy registry p t =
      (t.children.foldl (pass policy registry) (p.step policy registry ⟨.enter, t⟩)).step policy
        registry ⟨.leave, t⟩ := by
  rw [← passAll_eq]
  cases t <;> simp [pass, passAll, children]

theorem pass_of_halt {p : Pass σ} {fault : CallFault} (h : p.halt = some fault) (t : Tree) :
    pass policy registry p t = p := by
  rw [pass_eq_foldl, Pass.foldl_of_halt h]

/-! ## Levels are enough -/

theorem goInto_eq_some {inner : Pass σ → Tree → Option (Pass σ)} {part : Tree}
    (h : ∀ p, inner p part = some (pass policy registry p part)) (p : Pass σ) :
    goInto inner p part = some (pass policy registry p part) := by
  cases hhalt : p.halt with
  | none => simp only [goInto, hhalt, h p]
  | some fault => simp only [goInto, hhalt, pass_of_halt policy registry hhalt]

theorem foldlM_eq_some {α β : Type} {f : β → α → Option β} {g : β → α → β} {as : List α}
    (h : ∀ a ∈ as, ∀ b, f b a = some (g b a)) (b : β) :
    as.foldlM f b = some (as.foldl g b) := by
  induction as generalizing b with
  | nil => rfl
  | cons a as ih =>
    rw [List.foldlM_cons, h a List.mem_cons_self, List.foldl_cons]
    exact ih (fun c hc => h c (List.mem_cons_of_mem a hc)) (g b a)

/-- As many passes inside each other as the tree has levels are enough, whatever the visitor answers
and whether or not it is halted. -/
theorem passWithin_eq_some {calls : Nat} {t : Tree} (h : t.onLevel calls = []) (p : Pass σ) :
    passWithin policy registry calls p t = some (pass policy registry p t) := by
  induction calls generalizing p t with
  | zero => cases h
  | succ calls ih =>
    have hparts : ∀ c ∈ t.children, c.onLevel calls = [] := List.flatMap_eq_nil_iff.mp h
    rw [passWithin, foldlM_eq_some (g := pass policy registry), pass_eq]
    · rfl
    · intro c hc
      exact goInto_eq_some policy registry (ih (hparts c hc))

/-! ## Levels are needed -/

theorem halt_pass_skip {p : Pass σ} (h : p.halt = none) (t : Tree) :
    (pass .skip registry p t).halt = none := by
  rw [pass_eq_foldl, Pass.foldl_skip h]

theorem halt_step_skip {p : Pass σ} (h : p.halt = none) (callback : Callback) :
    (p.step .skip registry callback).halt = none := by
  have hone : ([callback].foldl (Pass.step .skip registry) p).halt = none := by
    rw [Pass.foldl_skip h]
  exact hone

/-- Where faults are skipped every part is gone into, up to the first that is too deep. -/
theorem foldlM_goInto_skip {inner : Pass σ → Tree → Option (Pass σ)} {calls : Nat}
    (hinner : ∀ p t, p.halt = none → inner p t =
      if t.onLevel calls = [] then some (pass .skip registry p t) else none)
    {p : Pass σ} (h : p.halt = none) (ts : List Tree) :
    ts.foldlM (goInto inner) p =
      if ts.flatMap (onLevel calls) = [] then some (ts.foldl (pass .skip registry) p)
      else none := by
  induction ts generalizing p with
  | nil => rfl
  | cons t ts ih =>
    have hfirst : goInto inner p t =
        if t.onLevel calls = [] then some (pass .skip registry p t) else none := by
      rw [← hinner p t h, goInto, h]
    rw [List.foldlM_cons, hfirst, List.flatMap_cons, List.foldl_cons]
    by_cases hlevel : t.onLevel calls = []
    · rw [if_pos hlevel, hlevel, List.nil_append]
      exact ih (halt_pass_skip registry h t)
    · rw [if_neg hlevel, if_neg fun hnone => hlevel (List.append_eq_nil_iff.mp hnone).1]
      rfl

/-- A pass that skips faults comes to every node: it needs just as many passes inside each other as
the tree has levels. -/
theorem passWithin_skip (calls : Nat) {p : Pass σ} (h : p.halt = none) (t : Tree) :
    passWithin .skip registry calls p t =
      if t.onLevel calls = [] then some (pass .skip registry p t) else none := by
  induction calls generalizing p t with
  | zero => rfl
  | succ calls ih =>
    have hentered := halt_step_skip registry h ⟨.enter, t⟩
    rw [passWithin, foldlM_goInto_skip registry (fun _ u hu => ih hu u) hentered, onLevel, pass_eq]
    split <;> rfl

/-! ## Trees that are loaded -/

theorem onLevel_eq_nil_of_le {n m : Nat} {t : Tree} (h : t.onLevel n = []) (hnm : n ≤ m) :
    t.onLevel m = [] := by
  induction hnm with
  | refl => exact h
  | step _ ih => rw [onLevel_succ, ih, List.flatMap_nil]

theorem parse_of_load {fs : FileSystem} {path : Path} {t : Tree} (h : load fs path = .ok t) :
    ∃ source, parse source = .ok t := by
  unfold load at h
  split at h
  · exact ⟨_, ofText_eq_ok.mp h⟩
  · cases h

/-- A tree that was loaded, from a text or from a file, has no nodes below the 64th level. So no
pass through it, whoever is led and whatever is done about faults, makes more than 64 passes inside
each other. -/
theorem passWithin_of_loaded {t : Tree}
    (h : (∃ source file, ofText source file = .ok t) ∨ ∃ fs path, load fs path = .ok t) :
    (∀ n, 64 ≤ n → t.onLevel n = []) ∧
      ∀ (σ : Type) [Visitor σ] (policy : FaultPolicy) (registry : Registry) (p : Pass σ),
        passWithin policy registry 64 p t = some (pass policy registry p t) := by
  have hparsed : ∃ source, parse source = .ok t := by
    rcases h with ⟨source, file, htext⟩ | ⟨fs, path, hfile⟩
    · exact ⟨source, ofText_eq_ok.mp htext⟩
    · exact parse_of_load hfile
  obtain ⟨source, hsource⟩ := hparsed
  have hlevels := onLevel_of_parse hsource
  refine ⟨fun n hn => onLevel_eq_nil_of_le hlevels hn, ?_⟩
  intro σ _ policy registry p
  exact passWithin_eq_some policy registry hlevels p

/-- A text with a call on the 64th level is loaded, and for its tree 64 passes inside each other are
enough and 63 are not. -/
theorem passWithin_nested :
    let deepest := nested (call "_" [] 1) 63
    let start : Pass Collector := { visitor := .ready }
    ofText deepest.brief "page.ast.json" = .ok deepest ∧
      passWithin .skip .markers 64 start deepest =
        some (pass .skip .markers start deepest) ∧
      passWithin .skip .markers 63 start deepest = none := by
  intro deepest start
  have hloaded : ofText deepest.brief "page.ast.json" = .ok deepest :=
    ofText_eq_ok.mpr (parse_brief_nested (numberFree_call "_" 1) rfl)
  have hlast : deepest.onLevel 63 = [call "_" [] 1] := onLevel_nested (call "_" [] 1) 63 0
  refine ⟨hloaded, (passWithin_of_loaded (.inl ⟨_, _, hloaded⟩)).2 _ _ _ _, ?_⟩
  rw [passWithin_skip _ _ rfl, hlast]
  rfl

end MessageHarvest.Tree
