import MessageHarvest.Proofs.Collection
import Mathlib.Data.List.Forall2

/-!
# What a registry decides

All that a collector asks of a registry is which of the four markers are registered. How their
arguments are named makes no difference, and neither does any other function.

* `Traverser.traverse_congr`: visitors that answer alike under two registries are led alike.
* `Traverser.told_traverse`: what holds of every fault of every answer holds of the faults of a
  traversal.
* `Collector.markers_decide`: registries with the same markers give the same; where more markers are
  registered there are more messages and fewer faulty calls; where all are registered no call is
  reported as unregistered.
-/

namespace MessageHarvest

/-! ## Visitors that answer alike -/

section

variable {σ : Type} [Visitor σ] {registry other : Registry}
  (h : ∀ callback (v : σ), Visitor.answer registry callback v = Visitor.answer other callback v)

include h

/-- If all answers are the same under two registries, so are the passes. -/
theorem Tree.pass_congr (policy : FaultPolicy) (p : Pass σ) (root : Tree) :
    root.pass policy registry p = root.pass policy other p := by
  have hstep : (Pass.step policy registry : Pass σ → Callback → Pass σ) =
      Pass.step policy other := by
    funext p callback
    simp only [Pass.step, h]
  rw [Tree.pass_eq_foldl, Tree.pass_eq_foldl, hstep]

namespace Traverser

theorem passInTurn_congr (policy : FaultPolicy) (root : Tree) (vs : List σ)
    (report : TraversalReport) :
    passInTurn policy registry root vs report = passInTurn policy other root vs report := by
  induction vs generalizing report with
  | nil => rfl
  | cons v vs ih => simp only [passInTurn, Tree.pass_congr h, ih]

theorem traverse_congr (traverser : Traverser σ) (root : Tree) :
    traverser.traverse registry root = traverser.traverse other root := by
  rw [traverse, traverse, passInTurn_congr h]

end Traverser

end

/-! ## The faults of a traversal -/

/-- Whether all faults of the pass, kept or halting, satisfy `P`. -/
def Pass.FaultsSatisfy {σ : Type} (P : CallFault → Prop) (p : Pass σ) : Prop :=
  (∀ fault ∈ p.faults, P fault) ∧ ∀ fault, p.halt = some fault → P fault

section

variable {σ : Type} [Visitor σ] {registry : Registry} {P : CallFault → Prop}
  (hanswer : ∀ callback (v : σ) fault,
    (Visitor.answer registry callback v).1 = some fault → P fault)

include hanswer

/-- A callback adds no fault but the one with which it is answered. -/
theorem Pass.FaultsSatisfy.step {p : Pass σ} (h : p.FaultsSatisfy P) (policy : FaultPolicy)
    (callback : Callback) : (p.step policy registry callback).FaultsSatisfy P := by
  unfold Pass.step
  split
  · exact h
  · rename_i hhalt
    have hnone : ∀ fault, p.halt = some fault → P fault := h.2
    dsimp only
    split
    · exact h
    · rename_i fault hfault
      refine ⟨fun kept hkept => ?_, hnone⟩
      rcases Array.mem_push.mp hkept with hkept | rfl
      · exact h.1 kept hkept
      · exact hanswer callback p.visitor kept hfault
    · rename_i fault hfault
      refine ⟨h.1, fun halting heq => ?_⟩
      cases heq
      exact hanswer callback p.visitor fault hfault

theorem Tree.faultsSatisfy_pass {p : Pass σ} (h : p.FaultsSatisfy P) (policy : FaultPolicy)
    (root : Tree) : (root.pass policy registry p).FaultsSatisfy P := by
  rw [Tree.pass_eq_foldl]
  exact List.foldlRecOn _ _ h fun _ h callback _ => h.step hanswer policy callback

namespace Traverser

/-- The faults of which an outcome tells. -/
def told : Except CallFault TraversalReport → List CallFault
  | .ok report => report.faults.toList
  | .error fault => [fault]

theorem told_passInTurn (policy : FaultPolicy) (root : Tree) (vs : List σ)
    {report : TraversalReport} (h : ∀ fault ∈ report.faults, P fault) :
    ∀ fault ∈ told (passInTurn policy registry root vs report).2, P fault := by
  induction vs generalizing report with
  | nil => simpa [passInTurn, told] using h
  | cons v vs ih =>
    have hstart : ({ visitor := v, visited := report.visited, faults := report.faults } :
        Pass σ).FaultsSatisfy P := ⟨h, by simp⟩
    obtain ⟨hkept, hhalting⟩ := Tree.faultsSatisfy_pass hanswer hstart policy root
    unfold passInTurn
    dsimp only
    split
    · rename_i fault hhalt
      simpa [told] using hhalting fault hhalt
    · exact ih hkept

/-- Every fault of a traversal is the fault of an answer. -/
theorem told_traverse (traverser : Traverser σ) (root : Tree) :
    ∀ fault ∈ told (traverser.traverse registry root).2, P fault :=
  told_passInTurn hanswer traverser.policy root _ (by simp)

end Traverser

end

/-! ## Registries and markers -/

namespace Registry

/-- Whether the same markers are in both registries. -/
def SameMarkers (registry other : Registry) : Prop :=
  ∀ name ∈ ["_", "__", "_n", "__n"], registry.lookup name = none ↔ other.lookup name = none

/-- Whether all markers of the one registry are in the other. -/
def MarkersWithin (registry other : Registry) : Prop :=
  ∀ name ∈ ["_", "__", "_n", "__n"], registry.lookup name ≠ none → other.lookup name ≠ none

/-- Whether all markers are in the registry. -/
def HasMarkers (registry : Registry) : Prop :=
  ∀ name ∈ ["_", "__", "_n", "__n"], registry.lookup name ≠ none

instance (registry other : Registry) : Decidable (registry.SameMarkers other) :=
  inferInstanceAs (Decidable (∀ name ∈ _, _))

instance (registry other : Registry) : Decidable (registry.MarkersWithin other) :=
  inferInstanceAs (Decidable (∀ name ∈ _, _))

instance (registry : Registry) : Decidable registry.HasMarkers :=
  inferInstanceAs (Decidable (∀ name ∈ _, _))

end Registry

namespace Tree

variable {registry other : Registry} {node : Tree}

theorem message?_congr (h : registry.SameMarkers other) (node : Tree) :
    node.message? registry = node.message? other := by
  cases node with
  | literal value line => rfl
  | other name children line => rfl
  | call name arguments line =>
    cases hm : isMarker name with
    | false => simp only [message?, hm, Bool.false_eq_true, if_false]
    | true =>
      have hnone : (registry.lookup name).isNone = (other.lookup name).isNone := by
        rw [Bool.eq_iff_iff, Option.isNone_iff_eq_none, Option.isNone_iff_eq_none]
        exact h name (isMarker_iff.mp hm)
      simp only [message?, messageOfCall, hnone]

/-- A message is there in every registry with the markers of the first. -/
theorem markedMessage?_mono (h : registry.MarkersWithin other) (node : Tree) (message : Message)
    (hmessage : node.markedMessage? registry = some message) :
    node.markedMessage? other = some message := by
  unfold markedMessage? at hmessage ⊢
  split at hmessage
  · split at hmessage
    · rename_i hmark
      rw [if_pos ⟨hmark.1, h _ (isMarker_iff.mp hmark.1) hmark.2⟩]
      exact hmessage
    · cases hmessage
  · cases hmessage

/-- The fault of a registered call is in its arguments, whatever else the registry holds. -/
theorem markFault?_of_lookup {name : String} (h : registry.lookup name ≠ none)
    (h' : other.lookup name ≠ none) (arguments : List Tree) (line : UInt64) :
    (call name arguments line).markFault? registry =
      (call name arguments line).markFault? other := by
  simp only [markFault?, h, h', if_false]

/-- A call without a fault has none in any registry with more markers. -/
theorem markFault?_eq_none_of_within (h : registry.MarkersWithin other)
    (hnone : node.markFault? registry = none) : node.markFault? other = none := by
  cases node with
  | literal value line => rfl
  | other name children line => rfl
  | call name arguments line =>
    by_cases hmark : (call name arguments line).isMark = true
    · have hlookup : registry.lookup name ≠ none := by
        intro hlookup
        simp [markFault?, hmark, hlookup] at hnone
      rw [← markFault?_of_lookup hlookup (h name (isMarker_iff.mp hmark) hlookup)]
      exact hnone
    · rw [markFault?, if_neg hmark]

/-- A registered marker is never reported as unregistered. -/
theorem cause_of_markFault? (h : registry.HasMarkers) {fault : CallFault}
    (hfault : node.markFault? registry = some fault) : fault.cause ≠ .unregisteredFunction := by
  cases node with
  | literal value line => cases hfault
  | other name children line => cases hfault
  | call name arguments line =>
    by_cases hmark : (call name arguments line).isMark = true
    · rw [markFault?, if_pos hmark, if_neg (h name (isMarker_iff.mp hmark))] at hfault
      intro hcause
      rcases arguments with _ | ⟨⟨_, _, _⟩ | ⟨_ | _ | _ | _, _⟩ | ⟨_, _, _⟩, rest⟩ <;>
        cases hfault <;> cases hcause
    · rw [markFault?, if_neg hmark] at hfault
      cases hfault

end Tree

/-! ## Collectors under two registries -/

/-- What a function finds more rarely in a list is a part of what another one finds. -/
theorem sublist_filterMap {α β : Type} {f g : α → Option β}
    (h : ∀ a b, f a = some b → g a = some b) (l : List α) :
    List.Sublist (l.filterMap f) (l.filterMap g) := by
  induction l with
  | nil => exact .slnil
  | cons a l ih =>
    cases hf : f a with
    | some b => simpa [hf, h a b hf] using ih
    | none =>
      cases hg : g a with
      | none => simpa [hf, hg] using ih
      | some c => simpa [hf, hg] using ih.cons c

namespace Collector

variable {registry other : Registry}

theorem answer_congr (h : registry.SameMarkers other) (callback : Callback)
    (collector : Collector) :
    Visitor.answer registry callback collector = Visitor.answer other callback collector := by
  obtain ⟨moment, node⟩ := callback
  cases moment with
  | leave => rfl
  | enter =>
    have henter : enter registry node collector = enter other node collector := by
      simp only [enter, Session.record, Tree.message?_congr h]
    exact henter

theorem collect_congr (h : registry.SameMarkers other) (collector : Collector)
    (policy : FaultPolicy) (root : Tree) :
    collector.collect policy registry root = collector.collect policy other root := by
  simp only [collect, Traverser.traverse_congr (answer_congr h)]

/-- A collector reports the fault of the node that it enters, if any. -/
theorem markFault?_of_answer {callback : Callback} {collector : Collector} {fault : CallFault}
    (h : (Visitor.answer registry callback collector).1 = some fault) :
    callback.node.markFault? registry = some fault := by
  obtain ⟨moment, node⟩ := callback
  obtain ⟨enabled, session⟩ := collector
  cases moment with
  | leave => cases h
  | enter =>
    cases enabled with
    | false => cases h
    | true =>
      rw [answer_enter] at h
      cases hf : node.markFault? registry with
      | none =>
        rw [hf] at h
        cases h
      | some f =>
        rw [hf] at h
        exact h

theorem told_collect (h : registry.HasMarkers) (collector : Collector) (policy : FaultPolicy)
    (root : Tree) :
    ∀ fault ∈ Traverser.told (collector.collect policy registry root).2,
      fault.cause ≠ .unregisteredFunction :=
  Traverser.told_traverse (fun _ _ _ hanswer =>
    Tree.cause_of_markFault? h (markFault?_of_answer hanswer)) _ root

theorem cause_of_harvest (h : registry.HasMarkers) {root : Tree} {fault : CallFault}
    (hharvest : harvest registry root = .error fault) : fault.cause ≠ .unregisteredFunction := by
  have htold := told_collect h Collector.ready .abort root
  unfold harvest at hharvest
  split at hharvest
  · cases hharvest
  · rename_i hrun
    cases hharvest
    rw [hrun] at htold
    exact htold fault (List.mem_singleton_self fault)

/-- The answers of an enabled collector on its own, in a traversal that skips. -/
theorem made_collect_skip (registry : Registry) (session : Session) (root : Tree) :
    (Traverser.mk [Collector.mk true session] .skip).made registry root =
      root.callbacks.map fun c =>
        (0, ⟨c, if c.moment = .enter then c.node.markFault? registry else none⟩) := by
  rw [Traverser.made_skip, Traverser.sort_singleton]
  simp [Traverser.inTurn, answers_eq]

/-- The faults of the outcome are those of the answers, and the outcome is no fault. -/
theorem outcome_collect_skip (registry : Registry) (session : Session) (root : Tree) :
    ((Collector.mk true session).collect .skip registry root).2 =
      .ok { visited := root.nodes.length
            faults := (((Traverser.mk [Collector.mk true session] .skip).made registry
              root).filterMap (·.2.fault?)).toArray } := by
  have hreported : Visitor.reported registry (Collector.mk true session) root.callbacks =
      root.nodes.filterMap (Tree.markFault? registry) := by
    rw [reported_eq]
    exact congrArg _ root.entered_callbacks
  rw [collect_skip_eq, ← hreported, Visitor.reported, answers_eq, made_collect_skip,
    List.filterMap_map, List.filterMap_map]
  rfl

/-- Which markers are registered decides all that a collector gives: under registries with the same
markers it does the same. Under a registry with more markers it gathers the same messages and
others among them, and where a call is faulty there, it is faulty under the registry with fewer.
Under a registry with all markers, such as `Registry.markers`, no call is unregistered. -/
theorem markers_decide (registry other : Registry) (root : Tree) :
    (registry.SameMarkers other → ∀ (collector : Collector) (policy : FaultPolicy),
      collector.collect policy registry root = collector.collect policy other root ∧
        harvest registry root = harvest other root) ∧
    (registry.MarkersWithin other → ∀ session : Session,
      let collector := Collector.mk true session
      let made := (Traverser.mk [collector] .skip).made
      (∃ fewer more : List Message, fewer.Sublist more ∧
        (collector.collect .skip registry root).1.messages = session.messages ++ fewer.toArray ∧
        (collector.collect .skip other root).1.messages = session.messages ++ more.toArray) ∧
      (∀ r, (collector.collect .skip r root).2 =
        .ok { visited := root.nodes.length
              faults := ((made r root).filterMap (·.2.fault?)).toArray }) ∧
      List.Forall₂ (fun a b => a.2.callback = b.2.callback ∧
        (b.2.fault? ≠ none → a.2.fault? ≠ none)) (made registry root) (made other root)) ∧
    (registry.HasMarkers →
      (∀ (collector : Collector) (policy : FaultPolicy),
        ∀ fault ∈ Traverser.told (collector.collect policy registry root).2,
          fault.cause ≠ .unregisteredFunction) ∧
      ∀ fault, harvest registry root = .error fault → fault.cause ≠ .unregisteredFunction) ∧
    Registry.markers.HasMarkers := by
  refine ⟨fun hsame collector policy => ?_, fun hwithin session => ?_, fun hall => ?_, by decide⟩
  · have hcollect := collect_congr hsame
    exact ⟨hcollect collector policy root, by rw [harvest, harvest, hcollect]⟩
  · refine ⟨⟨_, _, sublist_filterMap (Tree.markedMessage?_mono hwithin) root.nodes, ?_, ?_⟩,
      fun r => outcome_collect_skip r session root, ?_⟩
    · rw [collect_skip_eq]
      rfl
    · rw [collect_skip_eq]
      rfl
    · rw [made_collect_skip, made_collect_skip, List.forall₂_map_left_iff,
        List.forall₂_map_right_iff, List.forall₂_same]
      intro c _
      refine ⟨rfl, fun hfault hnone => hfault ?_⟩
      dsimp only at hnone ⊢
      split
      · rename_i henter
        rw [if_pos henter] at hnone
        exact Tree.markFault?_eq_none_of_within hwithin hnone
      · rfl
  · exact ⟨fun collector policy => told_collect hall collector policy root,
      fun _ => cause_of_harvest hall⟩

/-- A page with calls to three markers, one of them among the arguments of another. -/
def page : Tree :=
  .other "module" [.call "_n" [.literal (.string "One file") 5, .call "__" [] 9] 5,
    .call "_" [.literal (.string "Welcome") 6] 6, .call "upper" [.literal (.string "shout") 7] 7] 1

/-- A registry of one marker and another function. -/
def narrow : Registry :=
  Registry.empty |>.register "_" ["message"] |>.register "upper" ["text"]

theorem markers_decide_page :
    narrow.SameMarkers (Registry.empty.register "_" []) ∧
      harvest narrow page = harvest (Registry.empty.register "_" []) page ∧
    narrow.MarkersWithin .markers ∧
      List.Forall₂ (fun a b => a.2.callback = b.2.callback ∧
          (b.2.fault? ≠ none → a.2.fault? ≠ none))
        ((Traverser.mk [ready] .skip).made narrow page)
        ((Traverser.mk [ready] .skip).made .markers page) ∧
    Registry.markers.HasMarkers ∧
      ∀ fault ∈ Traverser.told (ready.collect .abort .markers page).2,
        fault.cause ≠ .unregisteredFunction := by
  have hsame : narrow.SameMarkers (Registry.empty.register "_" []) := by decide
  have hwithin : narrow.MarkersWithin .markers := by decide
  have hall : Registry.markers.HasMarkers := by decide
  exact ⟨hsame, ((markers_decide narrow _ page).1 hsame ready .skip).2,
    hwithin, ((markers_decide narrow .markers page).2.1 hwithin {}).2.2,
    hall, ((markers_decide .markers narrow page).2.2.1 hall).1 ready .abort⟩

end Collector

end MessageHarvest
