import MessageHarvest.Proofs.Traversal.Answers

/-!
# Traversals, callback by callback

A traversal lets each visitor make a pass of its own. Here it is played as one sequence of
callbacks, of which each is answered by the visitor at some position, so that it can be said in
which order the callbacks of different visitors are made.

* `Traverser.schedule`: the complete passes of all visitors, one after the other.
* `Play.step` makes one callback and writes it down. After a fault that halts the traversal nothing
  more is made.
* `Traverser.traverse_eq_play`: a traversal is the schedule, played callback by callback.
* `Play.exists_rest`: what has been made is a part of the schedule from its beginning on, and all of
  it unless a fault halted the traversal.
* `Play.Accounted`: the report is read off what was written down.
-/

namespace MessageHarvest

/-- A callback that was made: the position of the visitor, the visitor as it was then, and its
answer. -/
structure Act (σ : Type) where
  position : Nat
  visitor : σ
  answer : Answer

/-- A traversal under way: the visitors in the order of their passes, the nodes entered and the
faults kept so far, the fault that halted it, if one did, and all callbacks made so far. -/
structure Play (σ : Type) where
  visitors : List σ
  visited : Nat := 0
  faults : Array CallFault := #[]
  halt : Option CallFault := none
  acts : List (Act σ) := []

namespace Play

variable {σ : Type} [Visitor σ]

/-- The traversal after the visitor `v`, the one at the position, has answered the callback. -/
def answered (policy : FaultPolicy) (registry : Registry) (play : Play σ) (cue : Nat × Callback)
    (v : σ) : Play σ :=
  let start : Pass σ := { visitor := v, visited := play.visited, faults := play.faults }
  let p := start.step policy registry cue.2
  { visitors := play.visitors.set cue.1 p.visitor
    visited := p.visited
    faults := p.faults
    halt := p.halt
    acts := play.acts ++ [⟨cue.1, v, cue.2, (Visitor.answer registry cue.2 v).1⟩] }

/-- Lets the visitor at a position answer a callback, unless the traversal has been halted. -/
def step (policy : FaultPolicy) (registry : Registry) (play : Play σ) (cue : Nat × Callback) :
    Play σ :=
  match play.halt, play.visitors[cue.1]? with
  | none, some v => play.answered policy registry cue v
  | _, _ => play

def outcome (play : Play σ) : Except CallFault TraversalReport :=
  match play.halt with
  | some fault => .error fault
  | none => .ok { visited := play.visited, faults := play.faults }

end Play

namespace Traverser

variable {σ : Type} [Visitor σ]

/-- The callbacks of complete passes of so many visitors, each with the position of its visitor. -/
def schedule (count : Nat) (root : Tree) : List (Nat × Callback) :=
  (List.range count).flatMap fun position => root.callbacks.map (position, ·)

/-- The traversal of a tree, played to its end. -/
def play (traverser : Traverser σ) (registry : Registry) (root : Tree) : Play σ :=
  (schedule traverser.visitors.length root).foldl (Play.step traverser.policy registry)
    { visitors := sort traverser.visitors }

end Traverser

namespace Play

variable {σ : Type} [Visitor σ] (policy : FaultPolicy) (registry : Registry)

/-! ## What one callback changes -/

/-- Either nothing happens, or the visitor at the position answers. -/
theorem step_cases (play : Play σ) (cue : Nat × Callback) :
    play.step policy registry cue = play ∨
      ∃ v, play.halt = none ∧ play.visitors[cue.1]? = some v ∧
        play.step policy registry cue = play.answered policy registry cue v := by
  cases hhalt : play.halt with
  | some fault => exact .inl (by simp [step, hhalt])
  | none =>
    cases hvisitor : play.visitors[cue.1]? with
    | none => exact .inl (by simp [step, hhalt, hvisitor])
    | some v => exact .inr ⟨v, rfl, rfl, by simp [step, hhalt, hvisitor]⟩

theorem visitors_answered (play : Play σ) (cue : Nat × Callback) (v : σ) :
    (play.answered policy registry cue v).visitors =
      play.visitors.set cue.1 (Visitor.answer registry cue.2 v).2 := by
  cases hfault : (Visitor.answer registry cue.2 v).1 <;> cases policy <;>
    simp [answered, Pass.step, hfault]

theorem step_of_halt {play : Play σ} {fault : CallFault} (h : play.halt = some fault)
    (cue : Nat × Callback) : play.step policy registry cue = play := by
  simp [step, h]

/-- A halted traversal stays as it is. -/
theorem foldl_of_halt {play : Play σ} {fault : CallFault} (h : play.halt = some fault)
    (cues : List (Nat × Callback)) : cues.foldl (step policy registry) play = play := by
  induction cues with
  | nil => rfl
  | cons cue cues ih => rw [List.foldl_cons, step_of_halt policy registry h, ih]

/-- The traversal in which the visitors of `us` have made their passes, the pass `p` is under way,
and the visitors of `ws` are still to come. -/
def around (us ws : List σ) (acts : List (Act σ)) (p : Pass σ) : Play σ where
  visitors := us ++ p.visitor :: ws
  visited := p.visited
  faults := p.faults
  halt := p.halt
  acts := acts

/-- A callback of the pass under way changes nothing but that pass. -/
theorem step_around (us ws : List σ) (acts : List (Act σ)) (p : Pass σ) (c : Callback) :
    ∃ more, (around us ws acts p).step policy registry (us.length, c) =
      around us ws more (p.step policy registry c) := by
  cases hhalt : p.halt with
  | some fault => exact ⟨acts, by simp [around, step, Pass.step, hhalt]⟩
  | none =>
    obtain ⟨v, visited, faults, halt⟩ := p
    obtain rfl : halt = none := hhalt
    exact ⟨acts ++ [⟨us.length, v, c, (Visitor.answer registry c v).1⟩],
      by simp [around, step, answered]⟩

theorem foldl_around (us ws : List σ) (acts : List (Act σ)) (p : Pass σ) (cs : List Callback) :
    ∃ more, (cs.map (us.length, ·)).foldl (step policy registry) (around us ws acts p) =
      around us ws more (cs.foldl (Pass.step policy registry) p) := by
  induction cs generalizing acts p with
  | nil => exact ⟨acts, rfl⟩
  | cons c cs ih =>
    obtain ⟨next, hnext⟩ := step_around policy registry us ws acts p c
    rw [List.map_cons, List.foldl_cons, hnext, List.foldl_cons]
    exact ih next (p.step policy registry c)

/-- The visitors that are left make their passes one after the other. -/
theorem foldl_eq_passInTurn (root : Tree) (us vs : List σ) (acts : List (Act σ))
    (report : TraversalReport) :
    let start : Play σ :=
      { visitors := us ++ vs, visited := report.visited, faults := report.faults, acts := acts }
    let cues := (List.range' us.length vs.length).flatMap fun position =>
      root.callbacks.map (position, ·)
    let last := cues.foldl (step policy registry) start
    let run := Traverser.passInTurn policy registry root vs report
    last.visitors = us ++ run.1 ∧ last.outcome = run.2 := by
  induction vs generalizing us acts report with
  | nil => exact ⟨rfl, rfl⟩
  | cons v vs ih =>
    intro start cues last run
    let p : Pass σ := { visitor := v, visited := report.visited, faults := report.faults }
    obtain ⟨more, hpass⟩ := foldl_around policy registry us vs acts p root.callbacks
    have hlast : last = ((List.range' (us.length + 1) vs.length).flatMap fun position =>
        root.callbacks.map (position, ·)).foldl (step policy registry)
          (around us vs more (root.pass policy registry p)) := by
      rw [Tree.pass_eq_foldl, ← hpass, ← List.foldl_append]
      rfl
    have hrun : run = Traverser.passInTurn policy registry root (v :: vs) report := rfl
    rw [hlast, hrun, Traverser.passInTurn]
    generalize root.pass policy registry p = q
    cases hhalt : q.halt with
    | some fault =>
      rw [foldl_of_halt policy registry hhalt]
      simp [around, outcome, hhalt]
    | none =>
      have hnext := ih (us ++ [q.visitor]) more ⟨q.visited, q.faults⟩
      simpa [around, hhalt] using hnext

/-! ## What has been made -/

/-- The callbacks that have been made, each with the position of the visitor that answered. -/
def made (play : Play σ) : List (Nat × Callback) :=
  play.acts.map fun act => (act.position, act.answer.callback)

/-- Unless the traversal is halted, a callback is made if there is a visitor to answer it. -/
theorem step_of_lt {play : Play σ} (hhalt : play.halt = none) {cue : Nat × Callback}
    (hlt : cue.1 < play.visitors.length) :
    (play.step policy registry cue).made = play.made ++ [cue] ∧
      (play.step policy registry cue).visitors.length = play.visitors.length := by
  have hvisitor : play.visitors[cue.1]? = some play.visitors[cue.1] := List.getElem?_eq_getElem hlt
  simp [step, answered, made, hhalt, hvisitor]

/-- What is made is a part of what is to be made, and all of it unless there is a halt. -/
theorem exists_rest {play : Play σ} (hhalt : play.halt = none) {cues : List (Nat × Callback)}
    (hcues : ∀ cue ∈ cues, cue.1 < play.visitors.length) :
    let last := cues.foldl (step policy registry) play
    ∃ rest, last.made ++ rest = play.made ++ cues ∧ (last.halt = none → rest = []) := by
  induction cues generalizing play with
  | nil => exact ⟨[], rfl, fun _ => rfl⟩
  | cons cue cues ih =>
    obtain ⟨hcue, hrest⟩ := List.forall_mem_cons.mp hcues
    obtain ⟨hmade, hlength⟩ := step_of_lt policy registry hhalt hcue
    rw [List.foldl_cons]
    cases hnext : (play.step policy registry cue).halt with
    | some fault =>
      rw [foldl_of_halt policy registry hnext]
      refine ⟨cues, by rw [hmade, List.append_assoc, List.singleton_append], ?_⟩
      intro hnone
      rw [hnone] at hnext
      cases hnext
    | none =>
      obtain ⟨rest, hlast, hall⟩ := ih hnext (by rwa [hlength])
      exact ⟨rest, by rw [hlast, hmade, List.append_assoc, List.singleton_append], hall⟩

/-! ## The report -/

/-- The report of a traversal is what was written down of it: how often a node was entered and, if
faults are kept, all of them in the order of the callbacks. -/
structure Accounted (policy : FaultPolicy) (play : Play σ) : Prop where
  visited : play.visited = play.made.countP (·.2.moment = .enter)
  halt : policy = .skip → play.halt = none
  faults : policy = .skip → play.faults.toList = play.acts.filterMap (·.answer.fault?)

variable {policy}

theorem Accounted.step {play : Play σ} (h : Accounted policy play) (cue : Nat × Callback) :
    Accounted policy (play.step policy registry cue) := by
  rcases step_cases policy registry play cue with hstep | ⟨v, hhalt, -, hstep⟩
  · rwa [hstep]
  · obtain ⟨hvisited, -, hfaults⟩ := h
    have hmade : (play.answered policy registry cue v).made = play.made ++ [cue] := by
      simp [answered, made]
    have hcount : (play.made ++ [cue]).countP (·.2.moment = .enter) =
        if cue.2.moment = .enter then play.visited + 1 else play.visited := by
      rw [List.countP_append, ← hvisited]
      by_cases henter : cue.2.moment = .enter <;> simp [henter]
    rw [hstep]
    refine ⟨?_, ?_, ?_⟩
    · rw [hmade, hcount]
      cases hfault : (Visitor.answer registry cue.2 v).1 <;> cases policy <;>
        simp [answered, Pass.step, hfault]
    · rintro rfl
      cases hfault : (Visitor.answer registry cue.2 v).1 <;> simp [answered, Pass.step, hfault]
    · rintro rfl
      cases hfault : (Visitor.answer registry cue.2 v).1 <;>
        simp [answered, Pass.step, hfault, hfaults rfl]

end Play

namespace Traverser

variable {σ : Type} [Visitor σ]

theorem length_sort (visitors : List σ) : (sort visitors).length = visitors.length :=
  List.length_mergeSort _

/-- A traversal is its schedule, played callback by callback. -/
theorem traverse_eq_play (traverser : Traverser σ) (registry : Registry) (root : Tree) :
    traverser.traverse registry root =
      ({ traverser with visitors := (traverser.play registry root).visitors },
        (traverser.play registry root).outcome) := by
  obtain ⟨hvisitors, houtcome⟩ := Play.foldl_eq_passInTurn traverser.policy registry root []
    (sort traverser.visitors) [] {}
  rw [length_sort, List.length_nil, ← List.range_eq_range'] at hvisitors houtcome
  simp only [traverse]
  exact Prod.ext (congrArg (Traverser.mk · traverser.policy) hvisitors.symm) houtcome.symm

theorem position_lt_of_mem_schedule {count : Nat} {root : Tree} {cue : Nat × Callback}
    (h : cue ∈ schedule count root) : cue.1 < count := by
  obtain ⟨position, hposition, hcue⟩ := List.mem_flatMap.mp h
  obtain ⟨c, -, rfl⟩ := List.mem_map.mp hcue
  exact List.mem_range.mp hposition

theorem schedule_succ (count : Nat) (root : Tree) :
    schedule (count + 1) root = schedule count root ++ root.callbacks.map (count, ·) := by
  rw [schedule, List.range_succ, List.flatMap_append, List.flatMap_singleton, schedule]

/-- A traversal makes its schedule up to some callback, and all of it unless a fault halts it. -/
theorem made_play (traverser : Traverser σ) (registry : Registry) (root : Tree) :
    (traverser.play registry root).made <+: schedule traverser.visitors.length root ∧
      ((traverser.play registry root).halt = none →
        (traverser.play registry root).made = schedule traverser.visitors.length root) := by
  let start : Play σ := { visitors := sort traverser.visitors }
  have hcues : ∀ cue ∈ schedule traverser.visitors.length root, cue.1 < start.visitors.length := by
    intro cue hcue
    have hlength : start.visitors.length = traverser.visitors.length := length_sort _
    rw [hlength]
    exact position_lt_of_mem_schedule hcue
  obtain ⟨rest, hmade, hall⟩ := Play.exists_rest traverser.policy registry rfl hcues
  refine ⟨⟨rest, hmade⟩, fun hhalt => ?_⟩
  have hrest : rest = [] := hall hhalt
  rw [hrest, List.append_nil] at hmade
  exact hmade

theorem accounted_play (traverser : Traverser σ) (registry : Registry) (root : Tree) :
    Play.Accounted traverser.policy (traverser.play registry root) := by
  have hstart : Play.Accounted traverser.policy { visitors := sort traverser.visitors } :=
    ⟨rfl, fun _ => rfl, fun _ => rfl⟩
  exact List.foldlRecOn _ _ hstart fun _ h cue _ => h.step registry cue

end Traverser

/-! ## Visitors that behave alike -/

/-- Whether a visitor behaves as its image under `f` does. -/
structure Visitor.Mimics {τ σ : Type} [Visitor τ] [Visitor σ] (f : τ → σ) : Prop where
  priority : ∀ v, Visitor.priority (f v) = Visitor.priority v
  answer : ∀ registry callback v, Visitor.answer registry callback (f v) =
    ((Visitor.answer registry callback v).1, f (Visitor.answer registry callback v).2)

section

variable {τ σ : Type} [Visitor τ] [Visitor σ] {f : τ → σ}

/-- The same traversal of the images of its visitors. -/
def Play.map (f : τ → σ) (play : Play τ) : Play σ where
  visitors := play.visitors.map f
  visited := play.visited
  faults := play.faults
  halt := play.halt
  acts := play.acts.map fun act => ⟨act.position, f act.visitor, act.answer⟩

theorem Visitor.Mimics.step (h : Visitor.Mimics f) (policy : FaultPolicy) (registry : Registry)
    (play : Play τ) (cue : Nat × Callback) :
    (play.map f).step policy registry cue = (play.step policy registry cue).map f := by
  cases hhalt : play.halt with
  | some fault => simp [Play.step, Play.map, hhalt]
  | none =>
    cases hvisitor : play.visitors[cue.1]? with
    | none => simp [Play.step, Play.map, hhalt, hvisitor]
    | some v =>
      have hanswer := h.answer registry cue.2 v
      cases hfault : (Visitor.answer registry cue.2 v).1 <;> cases policy <;>
        simp [Play.step, Play.answered, Pass.step, Play.map, hhalt, hvisitor, hanswer, hfault]

theorem Visitor.Mimics.sort (h : Visitor.Mimics f) (visitors : List τ) :
    Traverser.sort (visitors.map f) = (Traverser.sort visitors).map f := by
  refine (List.map_mergeSort fun v _ w _ => ?_).symm
  rw [h.priority, h.priority]

theorem Visitor.Mimics.play (h : Visitor.Mimics f) (traverser : Traverser τ) (registry : Registry)
    (root : Tree) :
    (Traverser.mk (traverser.visitors.map f) traverser.policy).play registry root =
      (traverser.play registry root).map f := by
  have hstart : ({ visitors := (Traverser.sort traverser.visitors).map f } : Play σ) =
      Play.map f { visitors := Traverser.sort traverser.visitors } := rfl
  simp only [Traverser.play, List.length_map, h.sort]
  rw [hstart]
  exact List.foldl_hom (Play.map f) fun play cue => h.step traverser.policy registry play cue

/-- Visitors may be replaced by their images, and the outcome stays. -/
theorem Visitor.Mimics.traverse (h : Visitor.Mimics f) (traverser : Traverser τ)
    (registry : Registry) (root : Tree) :
    (Traverser.mk (traverser.visitors.map f) traverser.policy).traverse registry root =
      (⟨(traverser.traverse registry root).1.visitors.map f, traverser.policy⟩,
        (traverser.traverse registry root).2) := by
  rw [Traverser.traverse_eq_play, Traverser.traverse_eq_play traverser, h.play]
  rfl

end

end MessageHarvest
