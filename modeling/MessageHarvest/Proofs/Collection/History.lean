import MessageHarvest.Proofs.Collection
import Mathlib.Data.List.DropRight

/-!
# What becomes of the messages of a collector

A collector may be switched, renewed, shown single nodes and led through whole trees, in any order.
Whatever its history, a message that it accepted is still with it, was handed over by one renewal,
or was dropped by a switch.

* `Collector.along` lists what the uses of a history give one after the other: the nodes entered
  (`shown`), the messages accepted (`accepts`), what was let go of (`released`).
* `Collector.released_append_use`: what one use changes. `Collector.released_append_useAll` is the
  same for a whole history.
* `Collector.accounted_since_cut`: the messages are those of the nodes that were entered since the
  last switch or renewal.
-/

namespace MessageHarvest

/-! ## Passes of one visitor -/

namespace Traverser

variable {σ : Type} [Visitor σ]

/-- A visitor on its own answers the callbacks of a complete pass, or those up to some moment. -/
theorem exists_callbacks_traverse (policy : FaultPolicy) (registry : Registry) (root : Tree)
    (v : σ) :
    ∃ cs, cs <+: root.callbacks ∧
      ((Traverser.mk [v] policy).traverse registry root).1.visitors =
        [Visitor.after registry v cs] := by
  have hskip : ((Traverser.mk [v] .skip).traverse registry root).1.visitors =
      [Visitor.after registry v root.callbacks] := by
    rw [traverse_skip, sort_singleton]
    rfl
  cases policy with
  | skip => exact ⟨_, List.prefix_rfl, hskip⟩
  | abort =>
    by_cases hnone : Visitor.reported registry v root.callbacks = []
    · have hall : ∀ w ∈ sort [v], Visitor.reported registry w root.callbacks = [] := by
        rw [sort_singleton]
        intro w hw
        rwa [List.mem_singleton.mp hw]
      refine ⟨_, List.prefix_rfl, ?_⟩
      rw [traverse_abort_of_no_fault hall]
      exact hskip
    · obtain ⟨before, a, later, fault, hanswers, hbefore, ha⟩ :=
        exists_first_fault registry v root.callbacks hnone
      have hsort : sort [v] = [] ++ v :: [] := sort_singleton v
      refine ⟨root.callbacks.take (before.length + 1), List.take_prefix _ _, ?_⟩
      rw [traverse_abort_of_fault hsort (fun _ h => nomatch h) hanswers hbefore ha]
      rfl

/-- The callbacks that a visitor on its own has answered are those that were made. -/
theorem exists_callbacks_made (policy : FaultPolicy) (registry : Registry) (root : Tree) (v : σ) :
    ∃ cs, ((Traverser.mk [v] policy).traverse registry root).1.visitors =
        [Visitor.after registry v cs] ∧
      (Traverser.mk [v] policy).made registry root =
        (Visitor.answers registry v cs).map (0, ·) := by
  obtain ⟨cs, -, hcs⟩ := exists_callbacks_traverse policy registry root (Observed.start v)
  have hvisitors : ((Traverser.mk [v] policy).observed.traverse registry root).1.visitors =
      [Visitor.after registry (Observed.start v) cs] := hcs
  refine ⟨cs, ?_, ?_⟩
  · have hplain := congrArg Prod.fst (traverse_observed (Traverser.mk [v] policy) registry root)
    dsimp only at hplain
    rw [← hplain, hvisitors, List.map_singleton, Observed.after_eq]
    rfl
  · rw [made, hvisitors, List.map_singleton, Observed.after_eq]
    simp [inTurn, Observed.start]

end Traverser

namespace Collector

/-! ## Histories -/

/-- What can be done with a collector. In a traversal it is the only visitor. -/
inductive Use where
  | enable
  | disable
  | renew
  | enter (registry : Registry) (node : Tree)
  | leave (registry : Registry) (node : Tree)
  | traverse (policy : FaultPolicy) (registry : Registry) (root : Tree)

/-- Whether a session ends with the use. -/
def Use.isCut : Use → Bool
  | enable | disable | renew => true
  | _ => false

/-- What the collector is switched to by the use. -/
def Use.switch? : Use → Option Bool
  | enable => some true
  | disable => some false
  | _ => none

/-- The collector after the use. -/
def use (collector : Collector) : Use → Collector
  | .enable => collector.enable
  | .disable => collector.disable
  | .renew => collector.renew.2
  | .enter registry node => (Visitor.enter registry node collector).2
  | .leave registry node => (Visitor.leave registry node collector).2
  | .traverse policy registry root => (collector.collect policy registry root).1

def useAll (collector : Collector) (uses : List Use) : Collector :=
  uses.foldl use collector

/-- What the uses give one after the other, if `f` says what each gives. -/
def along {α : Type} (f : Collector → Use → List α) (collector : Collector) : List Use → List α
  | [] => []
  | u :: us => f collector u ++ along f (collector.use u) us

/-- The nodes that are entered in the course of a use, each with the registry of the moment. -/
def shown (collector : Collector) : Use → List (Registry × Tree)
  | .enter registry node => [(registry, node)]
  | .traverse policy registry root =>
    (((Traverser.mk [collector] policy).made registry root).filter
      (·.2.callback.moment = .enter)).map fun m => (registry, m.2.callback.node)
  | _ => []

/-- The messages of the well-formed calls among the nodes. -/
def marked (nodes : List (Registry × Tree)) : List Message :=
  nodes.filterMap fun (registry, node) => node.markedMessage? registry

/-- The messages that the collector accepts in the course of a use. -/
def accepts (collector : Collector) (u : Use) : List Message :=
  if collector.enabled then marked (collector.shown u) else []

/-- How a collector lets go of messages. -/
inductive Release where
  | handedOver (session : Session)
  | dropped (messages : Array Message)

def Release.messages : Release → List Message
  | handedOver session => session.messages.toList
  | dropped messages => messages.toList

/-- What the collector lets go of by a use. -/
def released (collector : Collector) : Use → List Release
  | .renew => [.handedOver collector.renew.1]
  | .enable | .disable => [.dropped collector.messages]
  | _ => []

/-! ## One use -/

theorem enter_eq (registry : Registry) (node : Tree) (collector : Collector) :
    Visitor.enter registry node collector =
      if collector.enabled then
        match node.markFault? registry with
        | some fault => (some fault, collector)
        | none => (none, ⟨true, ⟨collector.session.messages ++
            (node.markedMessage? registry).toArray⟩⟩)
      else (none, collector) := by
  obtain ⟨enabled, session⟩ := collector
  cases enabled with
  | true => exact answer_enter registry node session
  | false => rfl

/-- A collector that is switched off is changed by no callback. -/
theorem after_of_disabled {collector : Collector} (h : collector.enabled = false)
    (registry : Registry) (cs : List Callback) :
    Visitor.after registry collector cs = collector := by
  induction cs with
  | nil => rfl
  | cons c cs ih =>
    have hanswer : (Visitor.answer registry c collector).2 = collector := by
      obtain ⟨moment, node⟩ := c
      cases moment with
      | leave => rfl
      | enter =>
        have henter := enter_eq registry node collector
        rw [h] at henter
        exact congrArg Prod.snd henter
    rw [Visitor.after, hanswer, ih]

theorem nodesEntered_answers (registry : Registry) (collector : Collector) (cs : List Callback) :
    ((Visitor.answers registry collector cs).filter (·.callback.moment = .enter)).map
      (·.callback.node) = nodesEntered cs := by
  induction cs generalizing collector with
  | nil => rfl
  | cons c cs ih =>
    rw [Visitor.answers, nodesEntered_cons, ← ih (Visitor.answer registry c collector).2]
    by_cases h : c.moment = .enter <;> simp [h]

/-- In a traversal a collector answers some of the callbacks, and the nodes shown to it are those
that are entered by them. -/
theorem exists_callbacks_collect (collector : Collector) (policy : FaultPolicy)
    (registry : Registry) (root : Tree) :
    ∃ cs, collector.use (.traverse policy registry root) = Visitor.after registry collector cs ∧
      collector.shown (.traverse policy registry root) =
        (nodesEntered cs).map (registry, ·) := by
  obtain ⟨cs, hvisitors, hmade⟩ :=
    Traverser.exists_callbacks_made policy registry root collector
  refine ⟨cs, ?_, ?_⟩
  · simp only [use, collect, hvisitors]
    rfl
  · rw [shown, hmade, ← nodesEntered_answers registry collector]
    simp [List.filter_map, Function.comp_def]

theorem marked_singleton (registry : Registry) (node : Tree) :
    marked [(registry, node)] = (node.markedMessage? registry).toList := by
  cases h : node.markedMessage? registry <;> simp [marked, h]

theorem marked_append (nodes more : List (Registry × Tree)) :
    marked (nodes ++ more) = marked nodes ++ marked more :=
  List.filterMap_append

theorem marked_map (registry : Registry) (nodes : List Tree) :
    marked (nodes.map (registry, ·)) = nodes.filterMap (Tree.markedMessage? registry) := by
  rw [marked, List.filterMap_map]
  rfl

/-- What is let go of by a use and what is held after it are what was held before it and what was
accepted. -/
theorem released_append_use (collector : Collector) (u : Use) :
    (collector.released u).flatMap Release.messages ++ (collector.use u).messages.toList =
      collector.messages.toList ++ collector.accepts u := by
  obtain ⟨enabled, session⟩ := collector
  cases u with
  | enable | disable | renew | leave =>
    simp [released, Release.messages, use, enable, disable, renew, Visitor.leave, messages, accepts,
      shown, marked]
  | enter registry node =>
    have henter := enter_eq registry node ⟨enabled, session⟩
    cases enabled with
    | false => simp [released, use, accepts, henter]
    | true =>
      cases hfault : node.markFault? registry with
      | some fault =>
        have hnone := markedMessage?_of_markFault? hfault
        simp [released, use, accepts, shown, marked_singleton, henter, hfault, hnone]
      | none => simp [released, use, accepts, shown, marked_singleton, messages, henter, hfault]
  | traverse policy registry root =>
    obtain ⟨cs, huse, hshown⟩ :=
      exists_callbacks_collect ⟨enabled, session⟩ policy registry root
    cases enabled with
    | false => simp [released, accepts, huse, after_of_disabled]
    | true => simp [released, accepts, huse, hshown, marked_map, after_eq, messages]

theorem messages_use_of_isCut {u : Use} (h : u.isCut = true) (collector : Collector) :
    (collector.use u).messages = #[] := by
  cases u with
  | enable | disable | renew => rfl
  | enter | leave | traverse => cases h

theorem released_of_not_isCut {u : Use} (h : u.isCut = false) (collector : Collector) :
    collector.released u = [] := by
  cases u with
  | enable | disable | renew => cases h
  | enter | leave | traverse => rfl

theorem enabled_use (collector : Collector) (u : Use) :
    (collector.use u).enabled = u.switch?.getD collector.enabled := by
  cases u with
  | enable | disable | renew | leave => rfl
  | enter registry node =>
    simp only [use, Use.switch?, Option.getD_none, enter_eq]
    split
    · rename_i h
      split <;> simp [h]
    · rfl
  | traverse policy registry root =>
    obtain ⟨cs, huse, -⟩ := exists_callbacks_collect collector policy registry root
    obtain ⟨enabled, session⟩ := collector
    rw [huse]
    cases enabled with
    | false => rw [after_of_disabled rfl]; rfl
    | true => rw [after_eq]; rfl

/-- While it is switched off, a collector is changed by nothing but the end of a session. -/
theorem use_of_disabled {collector : Collector} (h : collector.enabled = false) {u : Use}
    (hu : u.isCut = false) : collector.use u = collector := by
  cases u with
  | enable | disable | renew => cases hu
  | leave => rfl
  | enter registry node => simp [use, enter_eq, h]
  | traverse policy registry root =>
    obtain ⟨cs, huse, -⟩ := exists_callbacks_collect collector policy registry root
    rw [huse, after_of_disabled h]

/-- A node that is refused changes nothing. -/
theorem enter_eq_none_or (registry : Registry) (node : Tree) (collector : Collector) :
    (Visitor.enter registry node collector).1 = none ∨
      (Visitor.enter registry node collector).2 = collector := by
  rw [enter_eq]
  split
  · split
    · exact .inr rfl
    · exact .inl rfl
  · exact .inl rfl

/-! ## Whole histories -/

/-- What is let go of in the course of a history and what is held after it are what was held before
it and what was accepted. -/
theorem released_append_useAll (collector : Collector) (uses : List Use) :
    (along released collector uses).flatMap Release.messages ++
        (collector.useAll uses).messages.toList =
      collector.messages.toList ++ along accepts collector uses := by
  induction uses generalizing collector with
  | nil => simp [along, useAll]
  | cons u us ih =>
    have hstep := released_append_use collector u
    have hrest := ih (collector.use u)
    calc (along released collector (u :: us)).flatMap Release.messages ++
          (collector.useAll (u :: us)).messages.toList
        = (collector.released u).flatMap Release.messages ++
            ((along released (collector.use u) us).flatMap Release.messages ++
              ((collector.use u).useAll us).messages.toList) := by
          simp [along, useAll]
      _ = ((collector.released u).flatMap Release.messages ++
            (collector.use u).messages.toList) ++ along accepts (collector.use u) us := by
          rw [hrest, List.append_assoc]
      _ = collector.messages.toList ++ along accepts collector (u :: us) := by
          rw [hstep, List.append_assoc, along]

theorem enabled_useAll (collector : Collector) (uses : List Use) :
    (collector.useAll uses).enabled =
      (uses.filterMap Use.switch?).getLast?.getD collector.enabled := by
  induction uses generalizing collector with
  | nil => rfl
  | cons u us ih =>
    have hrest : (collector.useAll (u :: us)).enabled = _ := ih (collector.use u)
    rw [hrest, enabled_use, List.filterMap_cons]
    cases u.switch? with
    | none => rfl
    | some on => simp [List.getLast?_cons]

theorem useAll_append (collector : Collector) (uses more : List Use) :
    collector.useAll (uses ++ more) = (collector.useAll uses).useAll more :=
  List.foldl_append

/-- After the last use that ended a session, or at the beginning, there are no messages. -/
theorem messages_useAll_rdropWhile (uses : List Use) :
    (useAll {} (uses.rdropWhile (!·.isCut))).messages = #[] := by
  by_cases hnil : uses.rdropWhile (!·.isCut) = []
  · rw [hnil]
    rfl
  · have hlast := List.rdropWhile_last_not (!·.isCut) uses hnil
    rw [← List.dropLast_append_getLast hnil, useAll_append]
    exact messages_use_of_isCut (by simpa using hlast) _

theorem switch?_of_not_isCut {u : Use} (h : u.isCut = false) : u.switch? = none := by
  cases u with
  | enable | disable | renew => cases h
  | enter | leave | traverse => rfl

theorem enabled_useAll_of_not_isCut {uses : List Use} (h : ∀ u ∈ uses, u.isCut = false)
    (collector : Collector) : (collector.useAll uses).enabled = collector.enabled := by
  have hnone : uses.filterMap Use.switch? = [] :=
    List.filterMap_eq_nil_iff.mpr fun u hu => switch?_of_not_isCut (h u hu)
  rw [enabled_useAll, hnone]
  rfl

theorem along_released_of_not_isCut {uses : List Use} (h : ∀ u ∈ uses, u.isCut = false)
    (collector : Collector) : along released collector uses = [] := by
  induction uses generalizing collector with
  | nil => rfl
  | cons u us ih =>
    rw [along, released_of_not_isCut (h u List.mem_cons_self),
      ih fun w hw => h w (List.mem_cons_of_mem u hw)]
    rfl

/-- While no session ends, a collector accepts all messages that it is shown, or none. -/
theorem along_accepts_of_not_isCut {uses : List Use} (h : ∀ u ∈ uses, u.isCut = false)
    (collector : Collector) :
    along accepts collector uses =
      if collector.enabled then marked (along shown collector uses) else [] := by
  induction uses generalizing collector with
  | nil => simp [along, marked]
  | cons u us ih =>
    have hsame : (collector.use u).enabled = collector.enabled := by
      rw [enabled_use, switch?_of_not_isCut (h u List.mem_cons_self)]
      rfl
    rw [along, along, ih (fun w hw => h w (List.mem_cons_of_mem u hw)), hsame, accepts]
    split
    · rw [marked_append]
    · rfl

/-- While no session ends, the messages that are held grow by what is accepted. -/
theorem messages_useAll_of_not_isCut {uses : List Use} (h : ∀ u ∈ uses, u.isCut = false)
    (collector : Collector) :
    (collector.useAll uses).messages.toList =
      collector.messages.toList ++ along accepts collector uses := by
  have hrun := released_append_useAll collector uses
  rw [along_released_of_not_isCut h] at hrun
  exact hrun

/-- After any history, a collector is switched on if its last switch was on. If so, it holds the
messages of the well-formed calls entered since the last switch or renewal, in their order, and else
none. A renewal hands over just these and leaves the switch; what is refused, left or shown to a
collector that is off changes nothing. So each message accepted so far is in one place: with a
session handed over, with what a switch dropped, or with the collector. -/
theorem accounted_since_cut (uses : List Use) :
    let collector := useAll {} uses
    let earlier := uses.rdropWhile (!·.isCut)
    let later := uses.rtakeWhile (!·.isCut)
    collector.enabled = (uses.filterMap Use.switch?).getLast?.getD false ∧
      collector.messages.toList =
        (if collector.enabled then
          (along shown (useAll {} earlier) later).filterMap fun (registry, node) =>
            node.markedMessage? registry
        else []) ∧
      collector.renew =
        (⟨collector.messages⟩, { enabled := collector.enabled, session := ⟨#[]⟩ }) ∧
      (∀ registry node, (Visitor.enter registry node collector).1 = none ∨
        (Visitor.enter registry node collector).2 = collector) ∧
      (∀ registry node, Visitor.leave registry node collector = (none, collector)) ∧
      (∀ u : Use, u.isCut ∨ collector.enabled ∨ collector.use u = collector) ∧
      along accepts {} uses =
        (along released {} uses).flatMap Release.messages ++ collector.messages.toList := by
  intro collector earlier later
  have hsplit : uses = earlier ++ later := List.rdropWhile_append_rtakeWhile.symm
  have hlater : ∀ u ∈ later, u.isCut = false := by
    intro u hu
    simpa using List.mem_rtakeWhile_imp hu
  have hcollector : collector = (useAll {} earlier).useAll later := by
    rw [← useAll_append, ← hsplit]
  have henabled : (useAll {} earlier).enabled = collector.enabled := by
    rw [hcollector, enabled_useAll_of_not_isCut hlater]
  refine ⟨enabled_useAll {} uses, ?_, rfl, fun registry node => enter_eq_none_or registry node _,
    fun _ _ => rfl, ?_, ?_⟩
  · -- What came earlier ends with a cut, or is nothing: no messages are held when `later` begins.
    have hbefore : (useAll {} earlier).messages = #[] := messages_useAll_rdropWhile uses
    have hheld := messages_useAll_of_not_isCut hlater (useAll {} earlier)
    rw [hbefore, along_accepts_of_not_isCut hlater, henabled, ← hcollector] at hheld
    exact hheld
  · intro u
    cases hu : u.isCut with
    | true => exact .inl rfl
    | false =>
      cases hon : collector.enabled with
      | true => exact .inr (.inl rfl)
      | false => exact .inr (.inr (use_of_disabled hon hu))
  · exact (released_append_useAll {} uses).symm

/-- A call that is refused adds nothing, and a traversal that is aborted stops at one. What was
accepted before the renewal was handed over by it. -/
example :
    let marked text line := Tree.call "_" [.literal (.string text) line] line
    let page := Tree.other "page" [marked "Hello" 2, .call "_" [] 3, marked "Bye" 4] 1
    let uses : List Use := [.enable, .enter .markers (marked "Title" 1), .renew,
      .enter .markers (.call "_n" [] 1), .traverse .abort .markers page]
    (useAll {} uses).messages = #[.plain "Hello" 2] ∧
      along released {} uses = [.dropped #[], .handedOver ⟨#[.plain "Title" 1]⟩] ∧
      along accepts {} uses = [.plain "Title" 1, .plain "Hello" 2] := by
  cbv

end Collector

end MessageHarvest
