import MessageHarvest.Collector
import MessageHarvest.Proofs.Traversal.Play

/-!
# The two fault policies

A traversal that aborts and one that skips, led through the same tree by the same visitors, agree up
to the first callback that is answered with a fault. There the first one ends.

To speak of the callbacks that a traversal makes, its visitors are observed: an `Observed` visitor
keeps a journal of its answers and behaves as before (`Traverser.traverse_observed`). The type of
the visitors is arbitrary, so a list may hold machines of different kinds as the cases of one type.

* `Traverser.made` lists the callbacks of a traversal in the order in which they are made
  (`Traverser.made_eq_acts`).
* `Traverser.made_skip`: under `FaultPolicy.skip` they are the complete passes, one after the other.
* `Traverser.abort_stops_skip`: under `FaultPolicy.abort` they are the part of that list that ends
  with the first fault, and that fault is the outcome.
-/

namespace MessageHarvest

/-! ## Observed visitors -/

/-- A visitor and the answers it has given so far. -/
structure Observed (σ : Type) where
  visitor : σ
  journal : List Answer := []

namespace Observed

variable {σ : Type} [Visitor σ]

/-- A visitor whose observation begins. -/
def start (v : σ) : Observed σ where
  visitor := v

/-- Answers as the visitor does, and writes the answer down. -/
def note (registry : Registry) (callback : Callback) (o : Observed σ) :
    Option CallFault × Observed σ :=
  let (fault?, visitor) := Visitor.answer registry callback o.visitor
  (fault?, { visitor, journal := o.journal ++ [⟨callback, fault?⟩] })

instance : Visitor (Observed σ) where
  priority o := Visitor.priority o.visitor
  enter registry node := note registry ⟨.enter, node⟩
  leave registry node := note registry ⟨.leave, node⟩

theorem answer_eq_note (registry : Registry) (callback : Callback) (o : Observed σ) :
    Visitor.answer registry callback o = note registry callback o := by
  obtain ⟨moment, node⟩ := callback
  cases moment <;> rfl

theorem after_eq (registry : Registry) (o : Observed σ) (cs : List Callback) :
    Visitor.after registry o cs =
      { visitor := Visitor.after registry o.visitor cs
        journal := o.journal ++ Visitor.answers registry o.visitor cs } := by
  induction cs generalizing o with
  | nil => simp [Visitor.after, Visitor.answers]
  | cons c cs ih => simp [Visitor.after, Visitor.answers, answer_eq_note, note, ih]

theorem answers_eq (registry : Registry) (o : Observed σ) (cs : List Callback) :
    Visitor.answers registry o cs = Visitor.answers registry o.visitor cs := by
  induction cs generalizing o with
  | nil => rfl
  | cons c cs ih => simp [Visitor.answers, answer_eq_note, note, ih]

theorem reported_start (registry : Registry) (v : σ) (cs : List Callback) :
    Visitor.reported registry (start v) cs = Visitor.reported registry v cs := by
  simp [Visitor.reported, answers_eq, start]

/-- Observation changes nothing of what a visitor does. -/
theorem mimics : Visitor.Mimics (visitor : Observed σ → σ) where
  priority _ := rfl
  answer registry callback o := by rw [answer_eq_note, note]

end Observed

namespace Traverser

variable {σ : Type} [Visitor σ]

/-- The traverser with all its visitors under observation. -/
def observed (traverser : Traverser σ) : Traverser (Observed σ) where
  visitors := traverser.visitors.map Observed.start
  policy := traverser.policy

/-- The entries of the journals, one journal after the other, each with the position of its journal.
-/
def inTurn (journals : List (List Answer)) : List (Nat × Answer) :=
  journals.zipIdx.flatMap fun (journal, position) => journal.map (position, ·)

theorem inTurn_append (xs ys : List (List Answer)) :
    inTurn (xs ++ ys) = inTurn xs ++
      (ys.zipIdx xs.length).flatMap fun (journal, position) => journal.map (position, ·) := by
  simp [inTurn, List.zipIdx_append]

/-- An entry of some journal splits the list of all entries. -/
theorem inTurn_split (xs ys : List (List Answer)) (before later : List Answer) (a : Answer) :
    ∃ rest, inTurn (xs ++ (before ++ a :: later) :: ys) =
      (inTurn xs ++ before.map (xs.length, ·)) ++ (xs.length, a) :: rest := by
  rw [inTurn_append]
  simp only [List.zipIdx_cons, List.flatMap_cons, List.map_append, List.map_cons,
    List.append_assoc, List.cons_append]
  exact ⟨_, rfl⟩

theorem mem_inTurn {xs : List (List Answer)} {m : Nat × Answer} (h : m ∈ inTurn xs) :
    ∃ x ∈ xs, m.2 ∈ x := by
  simp only [inTurn, List.mem_flatMap, List.mem_map] at h
  obtain ⟨⟨x, position⟩, hx, a, ha, rfl⟩ := h
  exact ⟨x, List.fst_mem_of_mem_zipIdx hx, ha⟩

/-- Empty journals at the end add nothing. -/
theorem inTurn_append_silent (xs : List (List Answer)) {ys : List (List Answer)}
    (h : ∀ y ∈ ys, y = []) : inTurn (xs ++ ys) = inTurn xs := by
  rw [inTurn_append, List.append_right_eq_self, List.flatMap_eq_nil_iff]
  intro p hp
  simp [h p.1 (List.fst_mem_of_mem_zipIdx hp)]

/-- The answers given in the course of a traversal, in their order. With each stands the position of
its visitor in the order of the passes. -/
def made (traverser : Traverser σ) (registry : Registry) (root : Tree) : List (Nat × Answer) :=
  inTurn ((traverser.observed.traverse registry root).1.visitors.map Observed.journal)

theorem sort_singleton (v : σ) : sort [v] = [v] := by
  simp [sort]

theorem sort_observed (vs : List σ) :
    sort (vs.map Observed.start) = (sort vs).map Observed.start :=
  (List.map_mergeSort (f := Observed.start) fun _ _ _ _ => rfl).symm

omit [Visitor σ] in
theorem observed_visitors (traverser : Traverser σ) :
    traverser.observed.visitors.map Observed.visitor = traverser.visitors := by
  rw [observed, List.map_map]
  exact List.map_id _

/-- Observation changes neither the visitors nor the outcome of a traversal. -/
theorem traverse_observed (traverser : Traverser σ) (registry : Registry) (root : Tree) :
    let run := traverser.observed.traverse registry root
    (run.1.visitors.map Observed.visitor, run.2) =
      ((traverser.traverse registry root).1.visitors, (traverser.traverse registry root).2) := by
  have h := Observed.mimics.traverse traverser.observed registry root
  rw [observed_visitors] at h
  rw [show traverser.traverse registry root = _ from h]

/-! ## What observed visitors write down -/

/-- As long as no later journal has an entry, the next one is entered at the end of all. -/
theorem inTurn_set {journals : List (List Answer)} {i : Nat} {journal : List Answer}
    (hjournal : journals[i]? = some journal)
    (hlater : ∀ later ∈ journals.drop (i + 1), later = []) (a : Answer) :
    inTurn (journals.set i (journal ++ [a])) = inTurn journals ++ [(i, a)] := by
  obtain ⟨hlt, hget⟩ := List.getElem?_eq_some_iff.mp hjournal
  have hsplit : ∀ j, inTurn (journals.take i ++ j :: journals.drop (i + 1)) =
      inTurn (journals.take i) ++ j.map (i, ·) := by
    intro j
    rw [List.append_cons, inTurn_append_silent _ hlater, inTurn_append]
    simp [Nat.min_eq_left (Nat.le_of_lt hlt)]
  have hwhole : journals = journals.take i ++ journal :: journals.drop (i + 1) := by
    rw [← hget, ← List.drop_eq_getElem_cons hlt, List.take_append_drop]
  calc inTurn (journals.set i (journal ++ [a]))
      = inTurn (journals.take i) ++ (journal ++ [a]).map (i, ·) := by
        rw [List.set_eq_take_append_cons_drop, if_pos hlt, hsplit]
    _ = inTurn (journals.take i ++ journal :: journals.drop (i + 1)) ++ [(i, a)] := by
        rw [hsplit, List.map_append, List.append_assoc]
        rfl
    _ = inTurn journals ++ [(i, a)] := by rw [← hwhole]

/-- Whether the journals hold what was written down of a traversal. -/
def Recorded (play : Play (Observed σ)) : Prop :=
  inTurn (play.visitors.map Observed.journal) = play.acts.map fun act => (act.position, act.answer)

theorem Recorded.step {play : Play (Observed σ)} (h : Recorded play) (policy : FaultPolicy)
    (registry : Registry) {cue : Nat × Callback}
    (hlater : ∀ o ∈ play.visitors.drop (cue.1 + 1), o.journal = []) :
    Recorded (play.step policy registry cue) := by
  rcases Play.step_cases policy registry play cue with hstep | ⟨o, -, ho, hstep⟩
  · rwa [hstep]
  · have hjournal : (play.visitors.map Observed.journal)[cue.1]? = some o.journal := by
      rw [List.getElem?_map, ho]
      rfl
    have hset := inTurn_set hjournal (by simpa [← List.map_drop] using hlater)
      ⟨cue.2, (Visitor.answer registry cue.2 o.visitor).1⟩
    rw [hstep, Recorded, Play.visitors_answered, List.map_set, Observed.answer_eq_note]
    refine hset.trans ?_
    rw [show inTurn _ = _ from h, Play.answered, List.map_append, Observed.answer_eq_note]
    rfl

/-- The journals are filled one after the other, as the visitors make their passes. -/
theorem Recorded.foldl {play : Play (Observed σ)} (h : Recorded play) (policy : FaultPolicy)
    (registry : Registry) {cues : List (Nat × Callback)}
    (hascending : cues.Pairwise fun c d => c.1 ≤ d.1)
    (hblank : ∀ cue ∈ cues, ∀ o ∈ play.visitors.drop (cue.1 + 1), o.journal = []) :
    Recorded (cues.foldl (Play.step policy registry) play) := by
  induction cues generalizing play with
  | nil => exact h
  | cons cue cues ih =>
    obtain ⟨hle, hascending⟩ := List.pairwise_cons.mp hascending
    obtain ⟨hlater, hblank⟩ := List.forall_mem_cons.mp hblank
    refine ih (h.step policy registry hlater) hascending fun d hd => ?_
    rcases Play.step_cases policy registry play cue with hstep | ⟨o, -, -, hstep⟩
    · rw [hstep]
      exact hblank d hd
    · rw [hstep, Play.visitors_answered, List.drop_set_of_lt (Nat.lt_succ_of_le (hle d hd))]
      exact hblank d hd

theorem pairwise_schedule (count : Nat) (root : Tree) :
    (schedule count root).Pairwise fun c d => c.1 ≤ d.1 := by
  refine List.pairwise_flatMap.mpr ⟨fun position _ => ?_, ?_⟩
  · exact List.pairwise_map.mpr (List.pairwise_of_forall fun _ _ => Nat.le_refl position)
  · refine List.pairwise_lt_range.imp fun {i j} hij c hc d hd => ?_
    obtain ⟨_, -, rfl⟩ := List.mem_map.mp hc
    obtain ⟨_, -, rfl⟩ := List.mem_map.mp hd
    exact Nat.le_of_lt hij

/-- What observed visitors write down in a traversal is what is written down when the traversal is
played callback by callback. -/
theorem made_eq_acts (traverser : Traverser σ) (registry : Registry) (root : Tree) :
    traverser.made registry root =
      (traverser.play registry root).acts.map fun act => (act.position, act.answer) := by
  have hblank : ∀ o ∈ sort traverser.observed.visitors, o.journal = [] := by
    intro o ho
    obtain ⟨v, -, rfl⟩ := List.mem_map.mp (List.mem_mergeSort.mp ho)
    rfl
  have hstart : Recorded { visitors := sort traverser.observed.visitors } :=
    inTurn_append_silent [] (List.forall_mem_map.mpr hblank)
  have hrecorded : Recorded (traverser.observed.play registry root) :=
    hstart.foldl _ registry (pairwise_schedule _ root) fun _ _ o ho =>
      hblank o (List.mem_of_mem_drop ho)
  have hplay := Observed.mimics.play traverser.observed registry root
  rw [observed_visitors] at hplay
  rw [made, traverse_eq_play, show inTurn _ = _ from hrecorded,
    show traverser.play registry root = _ from hplay, Play.map, List.map_map]
  rfl

/-! ## The callbacks under each policy -/

/-- Under `FaultPolicy.skip` each visitor in turn answers a complete pass. -/
theorem made_skip (visitors : List σ) (registry : Registry) (root : Tree) :
    (Traverser.mk visitors .skip).made registry root =
      inTurn ((sort visitors).map (Visitor.answers registry · root.callbacks)) := by
  simp [made, traverse, observed, sort_observed, passInTurn_skip, Function.comp_def,
    Observed.after_eq, Observed.start]

theorem made_abort_of_no_fault {visitors : List σ} {registry : Registry} {root : Tree}
    (h : ∀ v ∈ sort visitors, Visitor.reported registry v root.callbacks = []) :
    (Traverser.mk visitors .abort).made registry root =
      (Traverser.mk visitors .skip).made registry root := by
  have hobserved : ∀ o ∈ (sort visitors).map Observed.start,
      Visitor.reported registry o root.callbacks = [] := by
    intro o ho
    obtain ⟨v, hv, rfl⟩ := List.mem_map.mp ho
    rw [Observed.reported_start]
    exact h v hv
  simp only [made, traverse, observed, sort_observed]
  rw [passInTurn_abort_of_no_fault hobserved]

theorem made_abort_of_fault {visitors us ws : List σ} {v : σ} {registry : Registry} {root : Tree}
    {before later : List Answer} {a : Answer} {fault : CallFault}
    (hsort : sort visitors = us ++ v :: ws)
    (hus : ∀ u ∈ us, Visitor.reported registry u root.callbacks = [])
    (hv : Visitor.answers registry v root.callbacks = before ++ a :: later)
    (hbefore : ∀ b ∈ before, b.fault? = none) (ha : a.fault? = some fault) :
    (Traverser.mk visitors .abort).made registry root =
      inTurn (us.map (Visitor.answers registry · root.callbacks) ++ [before ++ [a]]) := by
  have hobserved : ∀ o ∈ us.map Observed.start,
      Visitor.reported registry o root.callbacks = [] := by
    intro o ho
    obtain ⟨u, hu, rfl⟩ := List.mem_map.mp ho
    rw [Observed.reported_start]
    exact hus u hu
  have hstart : Visitor.answers registry (Observed.start v) root.callbacks =
      before ++ a :: later := by
    rw [Observed.answers_eq]
    exact hv
  have htake : Visitor.answers registry v (root.callbacks.take (before.length + 1)) =
      before ++ [a] := by
    rw [Visitor.answers_take, hv]
    simp [List.take_append, List.take_of_length_le]
  simp only [made, traverse, observed, sort_observed, hsort, List.map_append, List.map_cons]
  rw [passInTurn_abort_of_fault hobserved hstart hbefore ha]
  simp only [List.map_append, List.map_map, List.map_cons, Observed.after_eq, Function.comp_def,
    Observed.start, List.nil_append, htake]
  rw [List.append_cons, inTurn_append_silent _ (by simp)]

/-! ## Aborting is skipping cut short -/

/-- The first element of a list with some property splits the list. -/
theorem exists_first {α : Type} {p : α → Bool} {l : List α} (h : ∃ a ∈ l, p a = true) :
    ∃ before a later, l = before ++ a :: later ∧ (∀ b ∈ before, p b = false) ∧ p a = true := by
  obtain ⟨a, ha⟩ := Option.isSome_iff_exists.mp (List.find?_isSome.mpr h)
  obtain ⟨hp, before, later, hl, hbefore⟩ := List.find?_eq_some_iff_append.mp ha
  exact ⟨before, a, later, hl, fun b hb => by simpa using hbefore b hb, hp⟩

/-- Where a visitor has faults to report, one of its answers is the first with a fault. -/
theorem exists_first_fault (registry : Registry) (v : σ) (cs : List Callback)
    (h : Visitor.reported registry v cs ≠ []) :
    ∃ before a later fault, Visitor.answers registry v cs = before ++ a :: later ∧
      (∀ b ∈ before, b.fault? = none) ∧ a.fault? = some fault := by
  have hsome : ∃ a ∈ Visitor.answers registry v cs, a.fault?.isSome = true := by
    obtain ⟨fault, hfault⟩ := List.exists_mem_of_ne_nil _ h
    obtain ⟨a, ha, hf⟩ := List.mem_filterMap.mp hfault
    exact ⟨a, ha, by simp [hf]⟩
  obtain ⟨before, a, later, hl, hbefore, ha⟩ := exists_first hsome
  obtain ⟨fault, hfault⟩ := Option.isSome_iff_exists.mp ha
  exact ⟨before, a, later, fault, hl, fun b hb => by simpa using hbefore b hb, hfault⟩

theorem traverse_skip (visitors : List σ) (registry : Registry) (root : Tree) :
    (Traverser.mk visitors .skip).traverse registry root =
      (⟨(sort visitors).map (Visitor.after registry · root.callbacks), .skip⟩,
        .ok { visited := (sort visitors).length * entered root.callbacks
              faults := ((sort visitors).flatMap
                (Visitor.reported registry · root.callbacks)).toArray }) := by
  simp [traverse, passInTurn_skip]

theorem traverse_abort_of_no_fault {visitors : List σ} {registry : Registry} {root : Tree}
    (h : ∀ v ∈ sort visitors, Visitor.reported registry v root.callbacks = []) :
    (Traverser.mk visitors .abort).traverse registry root =
      (⟨((Traverser.mk visitors .skip).traverse registry root).1.visitors, .abort⟩,
        ((Traverser.mk visitors .skip).traverse registry root).2) := by
  simp only [traverse, passInTurn_abort_of_no_fault h]

theorem traverse_abort_of_fault {visitors us ws : List σ} {v : σ} {registry : Registry}
    {root : Tree} {before later : List Answer} {a : Answer} {fault : CallFault}
    (hsort : sort visitors = us ++ v :: ws)
    (hus : ∀ u ∈ us, Visitor.reported registry u root.callbacks = [])
    (hv : Visitor.answers registry v root.callbacks = before ++ a :: later)
    (hbefore : ∀ b ∈ before, b.fault? = none) (ha : a.fault? = some fault) :
    (Traverser.mk visitors .abort).traverse registry root =
      (⟨us.map (Visitor.after registry · root.callbacks) ++
          Visitor.after registry v (root.callbacks.take (before.length + 1)) :: ws, .abort⟩,
        .error fault) := by
  simp only [traverse, hsort]
  rw [passInTurn_abort_of_fault hus hv hbefore ha]

theorem made_skip_of_no_fault {visitors : List σ} {registry : Registry} {root : Tree}
    (h : ∀ v ∈ sort visitors, Visitor.reported registry v root.callbacks = []) :
    ∀ m ∈ (Traverser.mk visitors .skip).made registry root, m.2.fault? = none := by
  intro m hm
  rw [made_skip] at hm
  obtain ⟨x, hx, hmx⟩ := mem_inTurn hm
  obtain ⟨v, hv, rfl⟩ := List.mem_map.mp hx
  exact (Visitor.reported_eq_nil_iff registry).mp (h v hv) m.2 hmx

/-- Up to the first fault the traversal that skips has complete passes and a part of one, all
without a fault. -/
theorem made_skip_of_fault {visitors us ws : List σ} {v : σ} {registry : Registry} {root : Tree}
    {before later : List Answer} {a : Answer} (hsort : sort visitors = us ++ v :: ws)
    (hus : ∀ u ∈ us, Visitor.reported registry u root.callbacks = [])
    (hv : Visitor.answers registry v root.callbacks = before ++ a :: later)
    (hbefore : ∀ b ∈ before, b.fault? = none) :
    let passed := inTurn (us.map (Visitor.answers registry · root.callbacks)) ++
      before.map (us.length, ·)
    ∃ rest, (Traverser.mk visitors .skip).made registry root = passed ++ (us.length, a) :: rest ∧
      ∀ m ∈ passed, m.2.fault? = none := by
  have hmade := made_skip visitors registry root
  rw [hsort, List.map_append, List.map_cons, hv] at hmade
  obtain ⟨rest, hrest⟩ := inTurn_split (us.map (Visitor.answers registry · root.callbacks))
    (ws.map (Visitor.answers registry · root.callbacks)) before later a
  rw [List.length_map] at hrest
  refine ⟨rest, hmade.trans hrest, fun m hm => ?_⟩
  rcases List.mem_append.mp hm with hm | hm
  · obtain ⟨x, hx, hmx⟩ := mem_inTurn hm
    obtain ⟨u, hu, rfl⟩ := List.mem_map.mp hx
    exact (Visitor.reported_eq_nil_iff registry).mp (hus u hu) m.2 hmx
  · obtain ⟨b, hb, rfl⟩ := List.mem_map.mp hm
    exact hbefore b hb

/-- Unless no visitor has a fault to report, there is a first one that has, and among its answers a
first one with a fault. -/
theorem exists_first_faulty {vs : List σ} {registry : Registry} {cs : List Callback}
    (h : ¬ ∀ v ∈ vs, Visitor.reported registry v cs = []) :
    ∃ us v ws before a later fault, vs = us ++ v :: ws ∧
      (∀ u ∈ us, Visitor.reported registry u cs = []) ∧
      Visitor.answers registry v cs = before ++ a :: later ∧
      (∀ b ∈ before, b.fault? = none) ∧ a.fault? = some fault := by
  have hsome : ∃ v ∈ vs, (!(Visitor.reported registry v cs).isEmpty) = true := by simpa using h
  obtain ⟨us, v, ws, hvs, hus, hv⟩ := exists_first hsome
  obtain ⟨before, a, later, fault, hanswers, hbefore, ha⟩ :=
    exists_first_fault registry v cs (by simpa using hv)
  exact ⟨us, v, ws, before, a, later, fault, hvs, fun u hu => by simpa using hus u hu, hanswers,
    hbefore, ha⟩

/-- A traversal that skips goes through with all passes. The one that aborts makes the same
callbacks up to the first one with a fault and no more; that fault is its outcome, and the visitors
after the one that reported it are as they were. Without a fault there is no difference. -/
theorem abort_stops_skip (visitors : List σ) (registry : Registry) (root : Tree) :
    let skip := Traverser.mk visitors .skip
    let abort := Traverser.mk visitors .abort
    ∃ report, (skip.traverse registry root).2 = .ok report ∧
      ((report.faults = #[] ∧
          abort.made registry root = skip.made registry root ∧
          (∀ m ∈ skip.made registry root, m.2.fault? = none) ∧
          (abort.traverse registry root).2 = .ok report ∧
          (abort.traverse registry root).1.visitors = (skip.traverse registry root).1.visitors) ∨
        ∃ before position answer fault later,
          skip.made registry root = before ++ (position, answer) :: later ∧
          (∀ m ∈ before, m.2.fault? = none) ∧
          answer.fault? = some fault ∧
          abort.made registry root = before ++ [(position, answer)] ∧
          (abort.traverse registry root).2 = .error fault ∧
          report.faults.toList.head? = some fault ∧
          (abort.traverse registry root).1.visitors.take position =
            (skip.traverse registry root).1.visitors.take position ∧
          (abort.traverse registry root).1.visitors.drop (position + 1) =
            (sort visitors).drop (position + 1)) := by
  intro skip abort
  have hskip := traverse_skip visitors registry root
  refine ⟨_, congrArg Prod.snd hskip, ?_⟩
  by_cases hall : ∀ v ∈ sort visitors, Visitor.reported registry v root.callbacks = []
  · left
    have habort := traverse_abort_of_no_fault hall
    refine ⟨by simpa using hall, made_abort_of_no_fault hall, made_skip_of_no_fault hall, ?_,
      congrArg (·.1.visitors) habort⟩
    rw [show abort.traverse registry root = _ from habort, hskip]
  · right
    obtain ⟨us, v, ws, before, a, later, fault, hsort, hus, hanswers, hbefore, ha⟩ :=
      exists_first_faulty hall
    have habort := traverse_abort_of_fault hsort hus hanswers hbefore ha
    obtain ⟨rest, hmade, hsilent⟩ := made_skip_of_fault hsort hus hanswers hbefore
    refine ⟨_, _, a, fault, rest, hmade, hsilent, ha, ?_, congrArg Prod.snd habort, ?_, ?_, ?_⟩
    · rw [show abort.made registry root = _ from
        made_abort_of_fault hsort hus hanswers hbefore ha, inTurn_append]
      simp
    · rw [hsort]
      exact Visitor.head?_flatMap_reported registry hus
        (Visitor.head?_reported registry hanswers hbefore ha)
    · rw [show abort.traverse registry root = _ from habort,
        show skip.traverse registry root = _ from hskip, hsort]
      simp
    · rw [show abort.traverse registry root = _ from habort, hsort]
      simp [List.drop_append, List.drop_eq_nil_of_le]

/-- A collector that is off has nothing to report. The next one stops the traversal that aborts as
it enters its second node, and the last one is not reached. -/
example :
    let page := Tree.other "page" [.call "_" [] 2, .call "_" [.literal (.string "Hello") 3] 3] 1
    let visitors : List Collector := [{}, .ready, .ready]
    let skip := Traverser.mk visitors .skip
    let abort := Traverser.mk visitors .abort
    abort.made .markers page = (skip.made .markers page).take 10 ∧
      (abort.made .markers page).getLast? =
        some (1, ⟨⟨.enter, .call "_" [] 2⟩, some ⟨.missingArgument, "_", 2⟩⟩) ∧
      (abort.traverse .markers page).2 = .error ⟨.missingArgument, "_", 2⟩ ∧
      (abort.traverse .markers page).1.visitors.map (·.messages) = [#[], #[], #[]] ∧
      (skip.traverse .markers page).2 =
        .ok ⟨12, #[⟨.missingArgument, "_", 2⟩, ⟨.missingArgument, "_", 2⟩]⟩ ∧
      (skip.traverse .markers page).1.visitors.map (·.messages) =
        [#[], #[.plain "Hello" 3], #[.plain "Hello" 3]] := by
  cbv

end Traverser

end MessageHarvest
