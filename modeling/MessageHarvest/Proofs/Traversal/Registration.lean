import Mathlib.Data.List.Infix
import Mathlib.Data.List.Permutation
import MessageHarvest.Proofs.Sorting
import MessageHarvest.Proofs.Traversal.Policies

/-!
# The order of visitors over a history

A traverser sorts its visitors whenever it traverses a tree, keeps them in that order and may be
given more of them in between. All the same every traversal lets them make their passes in the order
of one stable sort of all visitors in the order in which they were registered.

The visitors change from traversal to traversal, so that they are told by numbers: a `Registered`
visitor keeps the number of its registration and behaves as before (`Registered.mimics`).

* `Traverser.sort_filter`: sorting leaves visitors of one priority in their order.
* `Traverser.Arranged`: what stays true of the visitors in the course of a history.
* `Traverser.callers_in_order`: in which order the visitors of a traversal are called, whatever was
  done with the traverser before.
-/

namespace MessageHarvest

/-! ## Numbered visitors -/

/-- A visitor with the number of its registration. -/
structure Registered (σ : Type) where
  visitor : σ
  number : Nat
deriving DecidableEq, Repr

namespace Registered

variable {σ : Type} [Visitor σ]

/-- Answers as the visitor does, and keeps the number. -/
def respond (registry : Registry) (callback : Callback) (r : Registered σ) :
    Option CallFault × Registered σ :=
  let (fault?, visitor) := Visitor.answer registry callback r.visitor
  (fault?, { r with visitor })

instance : Visitor (Registered σ) where
  priority r := Visitor.priority r.visitor
  enter registry node := respond registry ⟨.enter, node⟩
  leave registry node := respond registry ⟨.leave, node⟩

theorem answer_eq_respond (registry : Registry) (callback : Callback) (r : Registered σ) :
    Visitor.answer registry callback r = respond registry callback r := by
  obtain ⟨moment, node⟩ := callback
  cases moment <;> rfl

theorem mimics : Visitor.Mimics (visitor : Registered σ → σ) where
  priority _ := rfl
  answer registry callback r := by rw [answer_eq_respond, respond]

theorem number_answer (registry : Registry) (callback : Callback) (r : Registered σ) :
    (Visitor.answer registry callback r).2.number = r.number := by
  rw [answer_eq_respond, respond]

/-- What the order of visitors depends on. -/
def key (r : Registered σ) : Int × Nat :=
  (Visitor.priority r.visitor, r.number)

/-- Whether a visitor makes its pass before another one. -/
def Before (r s : Registered σ) : Prop :=
  Visitor.priority r < Visitor.priority s ∨
    Visitor.priority r = Visitor.priority s ∧ r.number < s.number

end Registered

namespace Traverser

/-! ## Sorting visitors -/

section

variable {σ : Type} [Visitor σ]

theorem sort_perm (visitors : List σ) : (sort visitors).Perm visitors :=
  List.mergeSort_perm _ _

theorem stablySorted_sort (visitors : List σ) :
    StablySorted Visitor.priority visitors (sort visitors) :=
  .mergeSort Visitor.priority visitors

theorem pairwise_sort (visitors : List σ) :
    (sort visitors).Pairwise fun v w => Visitor.priority v ≤ Visitor.priority w :=
  (stablySorted_sort visitors).pairwise

/-- Sorting leaves the visitors of one priority in their order. -/
theorem sort_filter (visitors : List σ) (priority : Int) :
    (sort visitors).filter (Visitor.priority · = priority) =
      visitors.filter (Visitor.priority · = priority) :=
  (stablySorted_sort visitors).filter_eq priority

end

section

variable {σ : Type} [Visitor σ]

/-- Visitors of one priority stand in the order of their registration. -/
def InTies (visitors : List (Registered σ)) : Prop :=
  (visitors.map Registered.key).Pairwise fun k l => k.1 = l.1 → k.2 < l.2

/-- Sorting such visitors brings them into the order of their passes. -/
theorem InTies.pairwise_before {visitors : List (Registered σ)} (h : InTies visitors) :
    (sort visitors).Pairwise Registered.Before := by
  refine List.pairwise_iff_forall_sublist.mpr fun {r s} hrs => ?_
  have hle : Visitor.priority r ≤ Visitor.priority s := by
    simpa using (pairwise_sort visitors).sublist hrs
  by_cases hlt : Visitor.priority r < Visitor.priority s
  · exact .inl hlt
  · have hequal : Visitor.priority r = Visitor.priority s := by omega
    -- two visitors of one priority are found in this order before the sort, too
    have hbefore : List.Sublist [r, s] visitors := by
      have hfilter := hrs.filter (Visitor.priority · = Visitor.priority s)
      rw [sort_filter] at hfilter
      have hboth : [r, s].filter (Visitor.priority · = Visitor.priority s) = [r, s] := by
        simp [hequal]
      rw [hboth] at hfilter
      exact hfilter.trans List.filter_sublist
    have hnumber : r.key.1 = s.key.1 → r.key.2 < s.key.2 := by
      simpa using (List.pairwise_map.mp h).sublist hbefore
    exact .inr ⟨hequal, hnumber hequal⟩

theorem InTies.of_before {visitors : List (Registered σ)}
    (h : visitors.Pairwise Registered.Before) : InTies visitors := by
  refine List.pairwise_map.mpr (h.imp ?_)
  intro r s hrs hequal
  rcases hrs with hlt | ⟨-, hnumber⟩
  · exact absurd hequal (Int.ne_of_lt hlt)
  · exact hnumber

/-- What two visitors are sorted by is the same if their keys are. -/
theorem map_key_sort {visitors others : List (Registered σ)} (hvisitors : InTies visitors)
    (hothers : InTies others)
    (hperm : (visitors.map Registered.key).Perm (others.map Registered.key)) :
    (sort visitors).map Registered.key = (sort others).map Registered.key := by
  have hkeys : ∀ {vs : List (Registered σ)}, InTies vs →
      ((sort vs).map Registered.key).Pairwise fun k l => k.1 < l.1 ∨ k.1 = l.1 ∧ k.2 < l.2 :=
    fun h => List.pairwise_map.mpr h.pairwise_before
  refine List.Perm.eq_of_pairwise ?_ (hkeys hvisitors) (hkeys hothers) ?_
  · intro k l _ _ hkl hlk
    omega
  · exact ((sort_perm visitors).map _).trans (hperm.trans ((sort_perm others).map _).symm)

end

/-! ## What a traversal keeps -/

section

variable {σ β : Type} [Visitor σ] {g : σ → β}

/-- Whether the visitors of a traversal, and those that answered its callbacks, are told by `names`:
by what no answer changes of them. -/
structure Told (g : σ → β) (names : List β) (play : Play σ) : Prop where
  visitors : play.visitors.map g = names
  acts : ∀ act ∈ play.acts, names[act.position]? = some (g act.visitor)

theorem Told.step (hg : ∀ registry callback v, g (Visitor.answer registry callback v).2 = g v)
    {names : List β} {play : Play σ} (h : Told g names play) (policy : FaultPolicy)
    (registry : Registry) (cue : Nat × Callback) :
    Told g names (play.step policy registry cue) := by
  rcases Play.step_cases policy registry play cue with hstep | ⟨v, -, hv, hstep⟩
  · rwa [hstep]
  · have hname : names[cue.1]? = some (g v) := by rw [← h.visitors, List.getElem?_map, hv]; rfl
    obtain ⟨hlt, hget⟩ := List.getElem?_eq_some_iff.mp hname
    rw [hstep]
    refine ⟨?_, ?_⟩
    · rw [Play.visitors_answered, List.map_set, h.visitors, hg, ← hget, List.set_getElem_self]
    · intro act hact
      rcases List.mem_append.mp hact with hact | hact
      · exact h.acts act hact
      · rwa [List.mem_singleton.mp hact]

/-- Answers change nothing of what a visitor is told by. -/
theorem told_play (hg : ∀ registry callback v, g (Visitor.answer registry callback v).2 = g v)
    (traverser : Traverser σ) (registry : Registry) (root : Tree) :
    Told g ((sort traverser.visitors).map g) (traverser.play registry root) := by
  have hstart : Told g ((sort traverser.visitors).map g)
      ({ visitors := sort traverser.visitors } : Play σ) := ⟨rfl, nofun⟩
  exact List.foldlRecOn _ _ hstart fun _ h cue _ => h.step hg traverser.policy registry cue

theorem filterMap_schedule (names : List β) (root : Tree) :
    (schedule names.length root).filterMap (fun cue => names[cue.1]?) =
      names.flatMap (List.replicate root.callbacks.length ·) := by
  induction names using List.reverseRecOn with
  | nil => rfl
  | append_singleton names name ih =>
    have hlast : schedule (names ++ [name]).length root =
        schedule names.length root ++ root.callbacks.map (names.length, ·) := by
      rw [List.length_append, List.length_singleton, schedule_succ]
    have hfront : (schedule names.length root).filterMap (fun cue => (names ++ [name])[cue.1]?) =
        (schedule names.length root).filterMap (fun cue => names[cue.1]?) := by
      refine List.filterMap_congr fun cue hcue => ?_
      exact List.getElem?_append_left (position_lt_of_mem_schedule hcue)
    rw [hlast, List.filterMap_append, hfront, ih, List.flatMap_append]
    simp [List.filterMap_map]

/-- Those that are called in a traversal are called one after the other in the order of the passes,
up to a fault that halts the traversal. -/
theorem callers_play (hg : ∀ registry callback v, g (Visitor.answer registry callback v).2 = g v)
    (traverser : Traverser σ) (registry : Registry) (root : Tree) :
    let callers := (traverser.play registry root).acts.map (g ·.visitor)
    let all := ((sort traverser.visitors).map g).flatMap
      (List.replicate root.callbacks.length ·)
    callers <+: all ∧ ((traverser.play registry root).halt = none → callers = all) := by
  intro callers all
  have htold := told_play hg traverser registry root
  have hcallers : callers = (traverser.play registry root).made.filterMap fun cue =>
      ((sort traverser.visitors).map g)[cue.1]? := by
    rw [Play.made, List.filterMap_map]
    refine (List.filterMap_eq_map_iff_forall_eq_some.mpr ?_).symm
    exact fun act hact => htold.acts act hact
  have hlength : traverser.visitors.length = ((sort traverser.visitors).map g).length := by
    rw [List.length_map, length_sort]
  obtain ⟨hmade, hall⟩ := traverser.made_play registry root
  rw [hlength] at hmade hall
  rw [hcallers]
  have hschedule : all = (schedule ((sort traverser.visitors).map g).length root).filterMap
      fun cue => ((sort traverser.visitors).map g)[cue.1]? := (filterMap_schedule _ root).symm
  rw [hschedule]
  exact ⟨hmade.filterMap _, fun hhalt => by rw [hall hhalt]⟩

end

/-! ## Histories -/

/-- What can be done with a traverser. -/
inductive Event (σ : Type) where
  | add (visitor : σ)
  | traverse (registry : Registry) (root : Tree)

/-- The visitor that is registered by the event. -/
def Event.added? {σ : Type} : Event σ → Option σ
  | add visitor => some visitor
  | traverse _ _ => none

/-- The visitors that are registered in the course of a history. -/
def added {σ : Type} (history : List (Event σ)) : List σ :=
  history.filterMap Event.added?

/-- The same history with visitors that are numbered from `first` on as they are registered. -/
def numbered {σ : Type} (first : Nat) : List (Event σ) → List (Event (Registered σ))
  | [] => []
  | .add visitor :: history => .add ⟨visitor, first⟩ :: numbered (first + 1) history
  | .traverse registry root :: history => .traverse registry root :: numbered first history

theorem added_numbered {σ : Type} (first : Nat) (history : List (Event σ)) :
    (added (numbered first history)).map Registered.visitor = added history ∧
      (added (numbered first history)).map Registered.number =
        List.range' first (added history).length := by
  induction history generalizing first with
  | nil => exact ⟨rfl, rfl⟩
  | cons event history ih =>
    cases event with
    | add visitor =>
      obtain ⟨hvisitors, hnumbers⟩ := ih (first + 1)
      exact ⟨congrArg (visitor :: ·) hvisitors, congrArg (first :: ·) hnumbers⟩
    | traverse registry root => exact ih first

section

variable {σ : Type} [Visitor σ]

/-- The traverser after the event. -/
def undergo (traverser : Traverser σ) : Event σ → Traverser σ
  | .add visitor => traverser.add visitor
  | .traverse registry root => (traverser.traverse registry root).1

def undergoAll (traverser : Traverser σ) (history : List (Event σ)) : Traverser σ :=
  history.foldl undergo traverser

/-- A new traverser after a history. -/
def through (policy : FaultPolicy) (history : List (Event σ)) : Traverser σ :=
  undergoAll { policy } history

theorem policy_undergoAll (traverser : Traverser σ) (history : List (Event σ)) :
    (undergoAll traverser history).policy = traverser.policy := by
  induction history generalizing traverser with
  | nil => rfl
  | cons event history ih =>
    rw [undergoAll, List.foldl_cons]
    cases event with
    | add visitor => exact ih (traverser.add visitor)
    | traverse registry root => exact ih (traverser.traverse registry root).1

/-- The numbers change nothing of what happens. -/
theorem undergoAll_numbered (first : Nat) (history : List (Event σ))
    (traverser : Traverser (Registered σ)) :
    undergoAll ⟨traverser.visitors.map Registered.visitor, traverser.policy⟩ history =
      ⟨(undergoAll traverser (numbered first history)).visitors.map Registered.visitor,
        traverser.policy⟩ := by
  induction history generalizing first traverser with
  | nil => rfl
  | cons event history ih =>
    cases event with
    | add visitor =>
      have hadd : (Traverser.mk (traverser.visitors.map Registered.visitor) traverser.policy).add
          visitor = ⟨(traverser.add ⟨visitor, first⟩).visitors.map Registered.visitor,
            traverser.policy⟩ := by
        simp [add]
      rw [undergoAll, List.foldl_cons, undergo, hadd]
      exact ih (first + 1) (traverser.add ⟨visitor, first⟩)
    | traverse registry root =>
      rw [undergoAll, List.foldl_cons, undergo, Registered.mimics.traverse]
      exact ih first (traverser.traverse registry root).1

/-- What is true of the visitors of a traverser when those of `registered` have been registered,
with numbers less than `next`: they are the same, and those of one priority stand in the order of
their registration. -/
structure Arranged (visitors registered : List (Registered σ)) (next : Nat) : Prop where
  keys : (visitors.map Registered.key).Perm (registered.map Registered.key)
  inTies : InTies visitors
  lt : ∀ k ∈ visitors.map Registered.key, k.2 < next

theorem Arranged.add {visitors registered : List (Registered σ)} {next : Nat}
    (h : Arranged visitors registered next) (visitor : σ) :
    Arranged (visitors ++ [⟨visitor, next⟩]) (registered ++ [⟨visitor, next⟩]) (next + 1) := by
  have hmap : ∀ rs : List (Registered σ),
      (rs ++ [(⟨visitor, next⟩ : Registered σ)]).map Registered.key =
        rs.map Registered.key ++ [(Visitor.priority visitor, next)] := fun rs => List.map_append
  refine ⟨?_, ?_, ?_⟩
  · rw [hmap, hmap]
    exact h.keys.append_right _
  · rw [InTies, hmap]
    refine List.pairwise_append.mpr ⟨h.inTies, List.pairwise_singleton _ _, ?_⟩
    intro k hk l hl _
    rw [List.mem_singleton.mp hl]
    exact h.lt k hk
  · intro k hk
    rw [hmap] at hk
    rcases List.mem_append.mp hk with hk | hk
    · exact Nat.lt_succ_of_lt (h.lt k hk)
    · rw [List.mem_singleton.mp hk]
      exact Nat.lt_succ_self next

/-- A sort changes nothing of this, nor does anything that leaves the priorities and the numbers. -/
theorem Arranged.sort {visitors registered others : List (Registered σ)} {next : Nat}
    (h : Arranged visitors registered next)
    (hothers : others.map Registered.key = (Traverser.sort visitors).map Registered.key) :
    Arranged others registered next := by
  have hperm : (others.map Registered.key).Perm (visitors.map Registered.key) := by
    rw [hothers]
    exact (sort_perm visitors).map _
  refine ⟨hperm.trans h.keys, ?_, ?_⟩
  · rw [InTies, hothers]
    exact InTies.of_before h.inTies.pairwise_before
  · intro k hk
    exact h.lt k (hperm.mem_iff.mp hk)

variable (hconstant : ∀ registry callback (v : σ),
  Visitor.priority (Visitor.answer registry callback v).2 = Visitor.priority v)

include hconstant

/-- Answers change neither the priority nor the number of a visitor. -/
theorem key_answer (registry : Registry) (callback : Callback) (r : Registered σ) :
    (Visitor.answer registry callback r).2.key = r.key := by
  rw [Registered.answer_eq_respond, Registered.respond, Registered.key, hconstant, Registered.key]

/-- A traversal leaves the visitors in the order in which it sorted them. -/
theorem map_key_traverse (traverser : Traverser (Registered σ)) (registry : Registry)
    (root : Tree) :
    (traverser.traverse registry root).1.visitors.map Registered.key =
      (sort traverser.visitors).map Registered.key := by
  rw [traverse_eq_play]
  exact (told_play (key_answer hconstant) traverser registry root).visitors

/-- The visitors stay arranged in the course of a history. -/
theorem Arranged.undergoAll {traverser : Traverser (Registered σ)}
    {registered : List (Registered σ)} {next : Nat}
    (h : Arranged traverser.visitors registered next) (history : List (Event σ)) :
    Arranged (traverser.undergoAll (numbered next history)).visitors
      (registered ++ added (numbered next history)) (next + (added history).length) := by
  induction history generalizing traverser registered next with
  | nil => simpa [numbered, added, Traverser.undergoAll] using h
  | cons event history ih =>
    cases event with
    | add visitor =>
      have hadd : Arranged (traverser.add ⟨visitor, next⟩).visitors
          (registered ++ [⟨visitor, next⟩]) (next + 1) := h.add visitor
      have hnext := ih hadd
      rw [List.append_assoc, Nat.add_assoc, Nat.add_comm 1] at hnext
      exact hnext
    | traverse registry root =>
      exact ih (h.sort (map_key_traverse hconstant traverser registry root))

/-- Before a traversal, the visitors are arranged like all those registered so far. -/
theorem arranged_through (policy : FaultPolicy) (history : List (Event σ)) :
    Arranged (through policy (numbered 0 history)).visitors (added (numbered 0 history))
      (added history).length := by
  have hnew : Arranged ({ policy } : Traverser (Registered σ)).visitors [] 0 :=
    ⟨List.Perm.refl _, List.Pairwise.nil, nofun⟩
  have h := hnew.undergoAll hconstant history
  rwa [List.nil_append, Nat.zero_add] at h

/-- In every traversal, whatever was done with the traverser before, the visitors make their passes
by ascending priority and, within one priority, in the order of their registration.

Numbering the visitors changes nothing of the traversal. `order` is the one stable sort of all
visitors registered so far, given by their numbers. -/
theorem callers_in_order (policy : FaultPolicy) (history : List (Event σ)) (registry : Registry)
    (root : Tree) :
    let registered := added (numbered 0 history)
    let order := (sort registered).map Registered.number
    let play := (through policy (numbered 0 history)).play registry root
    let callers := play.acts.map fun act => act.visitor.number
    let passes := order.flatMap (List.replicate root.callbacks.length ·)
    (registered.map Registered.visitor = added history ∧
      registered.map Registered.number = List.range (added history).length) ∧
    ((sort registered).Perm registered ∧ (sort registered).Pairwise Registered.Before) ∧
    ((through policy history).traverse registry root =
        (⟨play.visitors.map Registered.visitor, policy⟩, play.outcome) ∧
      (through policy history).made registry root =
        play.acts.map fun act => (act.position, act.answer)) ∧
    play.visitors.map Registered.number = order ∧
    callers <+: passes ∧ (play.halt = none → callers = passes) := by
  intro registered order play callers passes
  obtain ⟨hvisitors, hnumbers⟩ := added_numbered 0 history
  rw [← List.range_eq_range'] at hnumbers
  have harranged := arranged_through hconstant policy history
  have hties : InTies registered := by
    have hascending : (registered.map Registered.number).Pairwise (· < ·) := by
      rw [hnumbers]
      exact List.pairwise_lt_range
    refine List.pairwise_map.mpr ((List.pairwise_map.mp hascending).imp ?_)
    intro r s hlt _
    exact hlt
  -- the visitors at hand may have been sorted many times, those of `registered` only once
  have hkeys : (sort (through policy (numbered 0 history)).visitors).map Registered.key =
      (sort registered).map Registered.key := map_key_sort harranged.inTies hties harranged.keys
  have horder : (sort (through policy (numbered 0 history)).visitors).map Registered.number =
      order := by
    have h := congrArg (List.map Prod.snd) hkeys
    rwa [List.map_map, List.map_map] at h
  have hpolicy : (through policy (numbered 0 history)).policy = policy :=
    policy_undergoAll { policy } (numbered 0 history)
  have hthrough : through policy history =
      ⟨(through policy (numbered 0 history)).visitors.map Registered.visitor,
        (through policy (numbered 0 history)).policy⟩ := by
    rw [hpolicy]
    exact undergoAll_numbered 0 history { policy }
  have htraverse : (through policy history).traverse registry root =
      (⟨play.visitors.map Registered.visitor, policy⟩, play.outcome) := by
    rw [hthrough, Registered.mimics.traverse, traverse_eq_play, hpolicy]
  have hmade : (through policy history).made registry root =
      play.acts.map fun act => (act.position, act.answer) := by
    rw [hthrough, made_eq_acts, Registered.mimics.play, Play.map, List.map_map]
    rfl
  have htold := told_play Registered.number_answer (through policy (numbered 0 history)) registry
    root
  have hcallers := callers_play Registered.number_answer (through policy (numbered 0 history))
    registry root
  rw [horder] at htold hcallers
  exact ⟨⟨hvisitors, hnumbers⟩, ⟨sort_perm _, hties.pairwise_before⟩, ⟨htraverse, hmade⟩,
    htold.visitors, hcallers⟩

end

/-- A visitor that objects to the nodes of one line when it enters them. -/
structure Critic where
  priority : Int
  line? : Option UInt64 := none
deriving DecidableEq, Repr

instance : Visitor Critic where
  priority := Critic.priority
  enter _ node critic :=
    (if critic.line? = some node.line then some ⟨.missingArgument, "_", node.line⟩ else none,
      critic)
  leave _ _ critic := (none, critic)

theorem priority_critic (registry : Registry) (callback : Callback) (critic : Critic) :
    Visitor.priority (Visitor.answer registry callback critic).2 = Visitor.priority critic := by
  obtain ⟨moment, node⟩ := callback
  cases moment <;> rfl

/-- Two critics of one priority, of which the first has been sorted twice before the other comes,
once in a traversal that is aborted. -/
def criticism : List (Event Critic) :=
  [.add ⟨10, none⟩, .traverse {} (.literal .null 1), .add ⟨-5, some 2⟩,
    .traverse {} (.literal .null 2), .add ⟨10, none⟩]

theorem callers_in_order_criticism :
    let aborted := (through .abort (criticism.take 3)).traverse {} (.literal .null 2)
    let play := (through .abort (numbered 0 criticism)).play {} (.literal .null 1)
    aborted.2 = .error ⟨.missingArgument, "_", 2⟩ ∧
      (∀ registry callback (critic : Critic),
        Visitor.priority (Visitor.answer registry callback critic).2 = Visitor.priority critic) ∧
      play.halt = none ∧
      (play.acts.map fun act => act.visitor.number) = [1, 1, 0, 0, 2, 2] := by
  have hhalt :
      ((through .abort (numbered 0 criticism)).play {} (.literal .null 1)).halt = none := by
    cbv
  obtain ⟨-, -, -, -, -, hcallers⟩ :=
    callers_in_order priority_critic .abort criticism {} (.literal .null 1)
  refine ⟨by cbv, priority_critic, hhalt, (hcallers hhalt).trans ?_⟩
  cbv

end Traverser

end MessageHarvest
