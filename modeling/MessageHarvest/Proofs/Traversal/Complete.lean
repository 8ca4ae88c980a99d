import MessageHarvest.Proofs.Traversal.Policies
import Mathlib.Data.List.Count
import Mathlib.Data.List.Forall2

/-!
# Complete passes

A node of a tree may look like another one, so that it is told by the way that leads to it: the
numbers of the parts from the root on. A complete pass meets each node twice, when it enters the
node and when it leaves it, and has in between all meetings with the nodes below and no others.

* `Tree.at?`: the node to which a way leads.
* `CompletePass`: what is said of a complete pass, in terms of the ways of its meetings.
* `Tree.meetings` lists the meetings of a pass by their ways. `Tree.meetings_split`: those with the
  nodes of a part are one stretch of it.
* `Traverser.skip_completes_passes`: under `FaultPolicy.skip` every visitor makes a complete pass,
  one after the other and whatever its faults, and the report tells all of them.
-/

namespace MessageHarvest

/-- The node to which the numbers of parts lead from the root on. -/
def Tree.at? (root : Tree) : (way : List Nat) → Option Tree
  | [] => some root
  | i :: way => (root.children[i]?).bind (at? · way)

/-- A moment at which a node is met that a way leads to. -/
structure Meeting where
  moment : Moment
  way : List Nat
deriving DecidableEq, Repr

/-- The meeting with a node in a tree, if this is the part of another one to which `way` leads. -/
def Meeting.below (way : List Nat) (m : Meeting) : Meeting :=
  { m with way := way ++ m.way }

/-- Meetings that make up a complete pass through a tree: each node is entered once and left once;
between the two are the meetings with the nodes below it, and no others are; of two parts of a node
the first is left before the other is entered. -/
structure Completes (root : Tree) (meetings : List Meeting) : Prop where
  once : ∀ moment way, (root.at? way).isSome → meetings.count ⟨moment, way⟩ = 1
  encloses : ∀ way, (root.at? way).isSome → ∃ before inside after,
    meetings = before ++ ⟨.enter, way⟩ :: (inside ++ ⟨.leave, way⟩ :: after) ∧
      (∀ m ∈ inside, way <+: m.way ∧ m.way ≠ way) ∧ ∀ m ∈ before ++ after, ¬ way <+: m.way
  inOrder : ∀ way i j, i < j → (root.at? (way ++ [j])).isSome →
    List.Sublist [⟨.leave, way ++ [i]⟩, ⟨.enter, way ++ [j]⟩] meetings

/-- A callback for a meeting: at its moment, and with the node that its way leads to. -/
def Meeting.IsFor (root : Tree) (m : Meeting) (c : Callback) : Prop :=
  m.moment = c.moment ∧ root.at? m.way = some c.node

/-- Callbacks that make up a complete pass through a tree. -/
def CompletePass (root : Tree) (pass : List Callback) : Prop :=
  ∃ meetings, Completes root meetings ∧ List.Forall₂ (Meeting.IsFor root) meetings pass

namespace Tree

/-! ## The meetings of a pass -/

mutual

/-- The meetings of a complete pass through the tree. -/
def meetings : Tree → List Meeting
  | call _ arguments _ => ⟨.enter, []⟩ :: (meetingsOfAll 0 arguments ++ [⟨.leave, []⟩])
  | literal _ _ => [⟨.enter, []⟩, ⟨.leave, []⟩]
  | other _ children _ => ⟨.enter, []⟩ :: (meetingsOfAll 0 children ++ [⟨.leave, []⟩])

/-- The meetings of complete passes through parts of a tree, numbered from `first` on. -/
def meetingsOfAll (first : Nat) : List Tree → List Meeting
  | [] => []
  | t :: ts => t.meetings.map (Meeting.below [first]) ++ meetingsOfAll (first + 1) ts

end

theorem meetings_eq (t : Tree) :
    t.meetings = ⟨.enter, []⟩ :: (meetingsOfAll 0 t.children ++ [⟨.leave, []⟩]) := by
  cases t <;> simp [meetings, meetingsOfAll, children]

theorem callbacks_eq (t : Tree) :
    t.callbacks = ⟨.enter, t⟩ :: (callbacksOfAll t.children ++ [⟨.leave, t⟩]) := by
  cases t <;> simp [callbacks, callbacksOfAll, children]

/-- The ways through parts begin with their numbers. -/
theorem head?_of_mem_meetingsOfAll {first : Nat} {ts : List Tree} {m : Meeting}
    (h : m ∈ meetingsOfAll first ts) : ∃ k rest, first ≤ k ∧ m.way = k :: rest := by
  induction ts generalizing first with
  | nil => cases h
  | cons t ts ih =>
    rcases List.mem_append.mp h with h | h
    · obtain ⟨n, -, rfl⟩ := List.mem_map.mp h
      exact ⟨first, n.way, Nat.le_refl _, rfl⟩
    · obtain ⟨k, rest, hk, hway⟩ := ih h
      exact ⟨k, rest, by omega, hway⟩

/-- The pass through one of the parts is one stretch, after those through the parts with smaller
numbers and before the others. -/
theorem meetingsOfAll_split {ts : List Tree} {i : Nat} {t : Tree} (h : ts[i]? = some t)
    (first : Nat) :
    ∃ before after, meetingsOfAll first ts =
        before ++ (t.meetings.map (Meeting.below [first + i]) ++ after) ∧
      (∀ m ∈ before, ∃ k rest, k < first + i ∧ m.way = k :: rest) ∧
      ∀ m ∈ after, ∃ k rest, first + i < k ∧ m.way = k :: rest := by
  induction ts generalizing first i with
  | nil => cases h
  | cons s ts ih =>
    cases i with
    | zero =>
      obtain rfl : s = t := by simpa using h
      refine ⟨[], meetingsOfAll (first + 1) ts, rfl, nofun, ?_⟩
      intro m hm
      obtain ⟨k, rest, hk, hway⟩ := head?_of_mem_meetingsOfAll hm
      exact ⟨k, rest, by omega, hway⟩
    | succ i =>
      obtain ⟨before, after, hsplit, hbefore, hafter⟩ := ih (by simpa using h) (first + 1)
      have hnumber : first + 1 + i = first + (i + 1) := by omega
      rw [hnumber] at hsplit hbefore hafter
      refine ⟨s.meetings.map (Meeting.below [first]) ++ before, after, ?_, ?_, hafter⟩
      · rw [meetingsOfAll, hsplit, List.append_assoc]
      · intro m hm
        rcases List.mem_append.mp hm with hm | hm
        · obtain ⟨n, -, rfl⟩ := List.mem_map.mp hm
          exact ⟨first, n.way, by omega, rfl⟩
        · exact hbefore m hm

/-- The pass through the part to which a way leads is one stretch, and no other meeting is with a
node of that part. -/
theorem meetings_split {root t : Tree} {way : List Nat} (h : root.at? way = some t) :
    ∃ before after, root.meetings = before ++ (t.meetings.map (Meeting.below way) ++ after) ∧
      ∀ m ∈ before ++ after, ¬ way <+: m.way := by
  induction way generalizing root with
  | nil =>
    obtain rfl : root = t := Option.some.inj h
    have hsame : Meeting.below [] = id := rfl
    exact ⟨[], [], by simp [hsame], nofun⟩
  | cons i way ih =>
    obtain ⟨part, hpart, hrest⟩ := Option.bind_eq_some_iff.mp h
    obtain ⟨front, back, hparts, hfront, hback⟩ := meetingsOfAll_split hpart 0
    obtain ⟨before, after, hsplit, houtside⟩ := ih hrest
    rw [Nat.zero_add] at hparts hfront hback
    have hbelow : Meeting.below [i] ∘ Meeting.below way = Meeting.below (i :: way) := rfl
    refine ⟨⟨.enter, []⟩ :: (front ++ before.map (Meeting.below [i])),
      after.map (Meeting.below [i]) ++ (back ++ [⟨.leave, []⟩]), ?_, ?_⟩
    · rw [meetings_eq, hparts, hsplit]
      simp [hbelow]
    · rintro m hm ⟨rest, hway⟩
      have hinside : ∀ n ∈ before ++ after, m ≠ Meeting.below [i] n := by
        rintro n hn rfl
        refine houtside n hn ⟨rest, ?_⟩
        simpa [Meeting.below] using hway
      simp only [List.cons_append, List.append_assoc, List.mem_cons, List.mem_append, List.mem_map,
        List.not_mem_nil, or_false] at hm
      rcases hm with rfl | hm | ⟨n, hn, rfl⟩ | ⟨n, hn, rfl⟩ | hm | rfl
      · cases hway
      · obtain ⟨k, more, hk, hm⟩ := hfront m hm
        rw [hm] at hway
        cases hway
        omega
      · exact hinside n (List.mem_append_left _ hn) rfl
      · exact hinside n (List.mem_append_right _ hn) rfl
      · obtain ⟨k, more, hk, hm⟩ := hback m hm
        rw [hm] at hway
        cases hway
        omega
      · cases hway

theorem ne_nil_of_mem_meetingsOfAll {first : Nat} {ts : List Tree} {m : Meeting}
    (h : m ∈ meetingsOfAll first ts) : m.way ≠ [] := by
  obtain ⟨k, rest, -, hway⟩ := head?_of_mem_meetingsOfAll h
  simp [hway]

/-- The root is entered once and left once. -/
theorem count_meetings (t : Tree) (moment : Moment) : t.meetings.count ⟨moment, []⟩ = 1 := by
  have hnone : (meetingsOfAll 0 t.children).count ⟨moment, []⟩ = 0 :=
    List.count_eq_zero.mpr fun h => ne_nil_of_mem_meetingsOfAll h rfl
  rw [meetings_eq, List.count_cons, List.count_append, hnone]
  cases moment <;> decide

theorem count_eq_one {root : Tree} {way : List Nat} (h : (root.at? way).isSome) (moment : Moment) :
    root.meetings.count ⟨moment, way⟩ = 1 := by
  obtain ⟨t, ht⟩ := Option.isSome_iff_exists.mp h
  obtain ⟨before, after, hsplit, houtside⟩ := meetings_split ht
  have hnone : ∀ ms : List Meeting, (∀ m ∈ ms, m ∈ before ++ after) →
      ms.count ⟨moment, way⟩ = 0 := by
    intro ms hms
    refine List.count_eq_zero.mpr fun hmem => ?_
    exact houtside _ (hms _ hmem) List.prefix_rfl
  have hinjective : Function.Injective (Meeting.below way) := by
    rintro ⟨m, w⟩ ⟨n, v⟩ heq
    simpa [Meeting.below] using heq
  have hroot : Meeting.mk moment way = Meeting.below way ⟨moment, []⟩ := by simp [Meeting.below]
  rw [hsplit, List.count_append, List.count_append,
    hnone before fun m hm => List.mem_append_left _ hm,
    hnone after fun m hm => List.mem_append_right _ hm, hroot,
    List.count_map_of_injective _ _ hinjective, count_meetings]

/-- What a pass meets in a part it meets between entering and leaving it. -/
theorem meetings_enclose {root : Tree} {way : List Nat} (h : (root.at? way).isSome) :
    ∃ before inside after,
      root.meetings = before ++ ⟨.enter, way⟩ :: (inside ++ ⟨.leave, way⟩ :: after) ∧
        (∀ m ∈ inside, way <+: m.way ∧ m.way ≠ way) ∧ ∀ m ∈ before ++ after, ¬ way <+: m.way := by
  obtain ⟨t, ht⟩ := Option.isSome_iff_exists.mp h
  obtain ⟨before, after, hsplit, houtside⟩ := meetings_split ht
  refine ⟨before, (meetingsOfAll 0 t.children).map (Meeting.below way), after, ?_, ?_, houtside⟩
  · rw [hsplit, meetings_eq]
    simp [Meeting.below]
  · intro m hm
    obtain ⟨n, hn, rfl⟩ := List.mem_map.mp hm
    have hne := ne_nil_of_mem_meetingsOfAll hn
    exact ⟨List.prefix_append _ _, by simpa [Meeting.below] using hne⟩

/-- A part is left before a later one is entered. -/
theorem sublist_meetingsOfAll {ts : List Tree} {i j : Nat} (hij : i < j) (hj : j < ts.length) :
    List.Sublist [⟨.leave, [i]⟩, ⟨.enter, [j]⟩] (meetingsOfAll 0 ts) := by
  have hmet : ∀ k, k < ts.length → ∀ moment, ⟨moment, [k]⟩ ∈ meetingsOfAll 0 ts := by
    intro k hk moment
    obtain ⟨before, after, hsplit, -⟩ := meetingsOfAll_split (List.getElem?_eq_getElem hk) 0
    rw [hsplit, Nat.zero_add, meetings_eq]
    cases moment <;> simp [Meeting.below]
  obtain ⟨before, after, hsplit, hbefore, hafter⟩ :=
    meetingsOfAll_split (List.getElem?_eq_getElem hj) 0
  rw [Nat.zero_add] at hsplit hbefore hafter
  -- the numbers tell in which of the three stretches a meeting is
  have hleave : ⟨.leave, [i]⟩ ∈ before := by
    have hmem := hmet i (by omega) .leave
    rw [hsplit, List.mem_append, List.mem_append] at hmem
    rcases hmem with hmem | hmem | hmem
    · exact hmem
    · obtain ⟨n, -, hn⟩ := List.mem_map.mp hmem
      have hnumber : j = i := Option.some.inj (congrArg (·.way.head?) hn)
      omega
    · obtain ⟨k, rest, hk, hway⟩ := hafter _ hmem
      cases hway
      omega
  have henter : ⟨.enter, [j]⟩ ∈ ts[j].meetings.map (Meeting.below [j]) ++ after := by
    have hmem := hmet j hj .enter
    rw [hsplit, List.mem_append] at hmem
    refine hmem.resolve_left fun hmem => ?_
    obtain ⟨k, rest, hk, hway⟩ := hbefore _ hmem
    cases hway
    omega
  rw [hsplit]
  exact (List.singleton_sublist.mpr hleave).append (List.singleton_sublist.mpr henter)

theorem at?_append (root : Tree) (way more : List Nat) :
    root.at? (way ++ more) = (root.at? way).bind (at? · more) := by
  induction way generalizing root with
  | nil => rfl
  | cons i way ih =>
    rw [List.cons_append, at?, at?, Option.bind_assoc]
    exact congrArg _ (funext ih)

theorem sublist_meetings {root : Tree} {way : List Nat} {i j : Nat} (hij : i < j)
    (h : (root.at? (way ++ [j])).isSome) :
    List.Sublist [⟨.leave, way ++ [i]⟩, ⟨.enter, way ++ [j]⟩] root.meetings := by
  obtain ⟨u, hu⟩ := Option.isSome_iff_exists.mp h
  rw [at?_append] at hu
  obtain ⟨t, ht, hpart⟩ := Option.bind_eq_some_iff.mp hu
  obtain ⟨v, hv, -⟩ := Option.bind_eq_some_iff.mp hpart
  have hj : j < t.children.length := (List.getElem?_eq_some_iff.mp hv).1
  obtain ⟨before, after, hsplit, -⟩ := meetings_split ht
  have hinside : List.Sublist [⟨.leave, [i]⟩, ⟨.enter, [j]⟩] t.meetings := by
    rw [meetings_eq]
    exact ((sublist_meetingsOfAll hij hj).trans (List.sublist_append_left _ _)).cons _
  rw [hsplit]
  refine List.Sublist.trans ?_ (List.sublist_append_right _ _)
  exact (hinside.map (Meeting.below way)).trans (List.sublist_append_left _ _)

/-! ## The callbacks of a pass -/

theorem forall₂_meetingsOfAll {root : Tree} {ts : List Tree} {first : Nat}
    (hparts : ∀ k, root.children[first + k]? = ts[k]?)
    (h : ∀ t ∈ ts, List.Forall₂ (Meeting.IsFor t) t.meetings t.callbacks) :
    List.Forall₂ (Meeting.IsFor root) (meetingsOfAll first ts) (callbacksOfAll ts) := by
  induction ts generalizing first with
  | nil => exact .nil
  | cons t ts ih =>
    obtain ⟨ht, hts⟩ := List.forall_mem_cons.mp h
    have hpart : root.children[first]? = some t := by simpa using hparts 0
    have hrest : ∀ k, root.children[first + 1 + k]? = ts[k]? := by
      intro k
      have hnumber : first + 1 + k = first + (k + 1) := by omega
      rw [hnumber, hparts (k + 1), List.getElem?_cons_succ]
    have hbelow : List.Forall₂ (Meeting.IsFor root) (t.meetings.map (Meeting.below [first]))
        t.callbacks := by
      refine List.forall₂_map_left_iff.mpr (ht.imp ?_)
      intro m c hmeet
      refine ⟨hmeet.1, ?_⟩
      simp [Meeting.below, at?, hpart, hmeet.2]
    exact List.rel_append hbelow (ih hrest hts)

/-- The callbacks of a pass are for its meetings, one by one. -/
theorem forall₂_meetings (t : Tree) :
    List.Forall₂ (Meeting.IsFor t) t.meetings t.callbacks := by
  induction t using ofChildren with
  | h t ih =>
    have hself : ∀ moment, Meeting.IsFor t ⟨moment, []⟩ ⟨moment, t⟩ := fun _ => ⟨rfl, rfl⟩
    rw [meetings_eq, callbacks_eq]
    refine .cons (hself .enter) (List.rel_append ?_ (.cons (hself .leave) .nil))
    exact forall₂_meetingsOfAll (fun k => by rw [Nat.zero_add]) ih

theorem completes_meetings (root : Tree) : Completes root root.meetings where
  once moment _ h := count_eq_one h moment
  encloses _ h := meetings_enclose h
  inOrder _ _ _ hij h := sublist_meetings hij h

/-- The schedule of a pass is one of a complete pass. -/
theorem completePass_callbacks (root : Tree) : CompletePass root root.callbacks :=
  ⟨root.meetings, completes_meetings root, forall₂_meetings root⟩

end Tree

namespace Traverser

variable {σ : Type} [Visitor σ]

theorem entered_schedule (count : Nat) (root : Tree) :
    (schedule count root).countP (·.2.moment = .enter) = count * root.nodes.length := by
  induction count with
  | zero => simp [schedule]
  | succ count ih =>
    have hpass : (root.callbacks.map (count, ·)).countP (·.2.moment = .enter) =
        root.nodes.length := by
      rw [List.countP_map, ← Tree.entered_length]
      rfl
    rw [schedule_succ, List.countP_append, ih, hpass, Nat.succ_mul]

/-- A traversal that skips never fails. Its visitors make complete passes, one after the other in
their order, and whatever faults they report; it enters each node once for each visitor, and its
faults are those of all answers in the order in which they were given. -/
theorem skip_completes_passes (visitors : List σ) (registry : Registry) (root : Tree) :
    let skip := Traverser.mk visitors .skip
    let play := skip.play registry root
    skip.traverse registry root =
        (⟨play.visitors, .skip⟩, .ok { visited := play.visited, faults := play.faults }) ∧
      (skip.made registry root = play.acts.map fun act => (act.position, act.answer)) ∧
      (∃ pass, CompletePass root pass ∧
        play.made = (List.range visitors.length).flatMap fun position =>
          pass.map (position, ·)) ∧
      play.visited = visitors.length * root.nodes.length ∧
      play.faults.toList = play.acts.filterMap (·.answer.fault?) := by
  intro skip play
  obtain ⟨hvisited, hhalt, hfaults⟩ := skip.accounted_play registry root
  have hmade : play.made = schedule visitors.length root :=
    (skip.made_play registry root).2 (hhalt rfl)
  refine ⟨?_, skip.made_eq_acts registry root, ⟨root.callbacks, root.completePass_callbacks, hmade⟩,
    ?_, hfaults rfl⟩
  · rw [traverse_eq_play]
    simp [Play.outcome, hhalt rfl, skip, play]
  · rw [hvisited, ← entered_schedule, ← hmade]

end Traverser

end MessageHarvest
