import MessageHarvest.Collector
import MessageHarvest.Proofs.Traversal.Policies

/-!
# What a collector gathers from a tree

Each call to a marker gives one message or one fault, wherever it stands: also among the arguments
of another call to a marker, and also if that one is malformed. Nothing else gives anything.

* `Tree.markedMessage?` and `Tree.markFault?` say what a node gives, read off the node alone.
* `Collector.collect_skip`: the messages and the faults of a traversal that skips are what the nodes
  give in document order; `harvest` gives the same messages or fails with the first of the faults.
-/

namespace MessageHarvest

namespace Tree

/-! ## What a node gives -/

/-- Whether the node is a call to a marker. -/
def isMark : Tree → Bool
  | call name _ _ => ["_", "__", "_n", "__n"].contains name
  | _ => false

/-- The message of a registered call to a marker whose first argument is a string. -/
def markedMessage? (registry : Registry) : Tree → Option Message
  | call name (literal (.string text) l :: arguments) line =>
    if (call name (literal (.string text) l :: arguments) line).isMark ∧
        registry.lookup name ≠ none then
      some { text, plural := none, domain := "messages", notes := none, context := none, line }
    else none
  | _ => none

/-- The fault of a call to a marker that has no message. -/
def markFault? (registry : Registry) : Tree → Option CallFault
  | call name arguments line =>
    if (call name arguments line).isMark then
      if registry.lookup name = none then some ⟨.unregisteredFunction, name, line⟩
      else match arguments.head? with
        | none => some ⟨.missingArgument, name, line⟩
        | some first => match first.literal? with
          | none => some ⟨.nonLiteralArgument, name, line⟩
          | some value => match value.text? with
            | none => some ⟨.nonStringLiteral, name, line⟩
            | some _ => none
    else none
  | _ => none

theorem isMarker_iff {name : String} : isMarker name = true ↔ name ∈ ["_", "__", "_n", "__n"] :=
  List.contains_iff_mem

theorem isMark_call (name : String) (arguments : List Tree) (line : UInt64) :
    (call name arguments line).isMark = isMarker name := rfl

/-- A call to a marker gives exactly one of the two, any other node neither. -/
theorem given_count (registry : Registry) (node : Tree) :
    (node.markedMessage? registry).toList.length + (node.markFault? registry).toList.length =
      if node.isMark then 1 else 0 := by
  cases node with
  | call name arguments line =>
    cases hm : isMarker name <;> cases hr : registry.lookup name <;>
      rcases arguments with _ | ⟨⟨_, _, _⟩ | ⟨_ | _ | _ | _, _⟩ | ⟨_, _, _⟩, rest⟩ <;>
      simp [markedMessage?, markFault?, isMark_call, hm, hr, literal?, Literal.text?]
  | literal value line => rfl
  | other name children line => rfl

theorem given_length (registry : Registry) (nodes : List Tree) :
    (nodes.filterMap (markedMessage? registry)).length +
      (nodes.filterMap (markFault? registry)).length = nodes.countP isMark := by
  induction nodes with
  | nil => rfl
  | cons node nodes ih =>
    have h := given_count registry node
    cases hm : node.markedMessage? registry <;> cases hf : node.markFault? registry <;>
      cases hk : node.isMark <;> simp_all <;> omega

theorem message?_eq (registry : Registry) (node : Tree) :
    node.message? registry =
      match node.markFault? registry with
      | some fault => .error fault
      | none => .ok (node.markedMessage? registry) := by
  cases node with
  | call name arguments line =>
    cases hm : isMarker name <;> cases hr : registry.lookup name <;>
      rcases arguments with _ | ⟨⟨_, _, _⟩ | ⟨_ | _ | _ | _, _⟩ | ⟨_, _, _⟩, rest⟩ <;>
      simp [markedMessage?, markFault?, isMark_call, hm, hr, literal?, Literal.text?, message?,
        messageOfCall, Message.plain, Message.defaultDomain, Functor.map, Except.map]
  | literal value line => rfl
  | other name children line => rfl

end Tree

namespace Collector

/-! ## A collector among the callbacks of a pass -/

/-- The nodes that are entered in the course of the callbacks. -/
def nodesEntered (cs : List Callback) : List Tree :=
  (cs.filter (·.moment = .enter)).map Callback.node

theorem nodesEntered_cons (moment : Moment) (node : Tree) (cs : List Callback) :
    nodesEntered (⟨moment, node⟩ :: cs) =
      if moment = .enter then node :: nodesEntered cs else nodesEntered cs := by
  by_cases h : moment = .enter <;> simp [nodesEntered, h]

/-- Entering a node gathers its message or reports its fault. -/
theorem answer_enter (registry : Registry) (node : Tree) (session : Session) :
    Visitor.answer registry ⟨.enter, node⟩ (Collector.mk true session) =
      match node.markFault? registry with
      | some fault => (some fault, ⟨true, session⟩)
      | none => (none, ⟨true, ⟨session.messages ++ (node.markedMessage? registry).toArray⟩⟩) := by
  have h : Visitor.answer registry ⟨.enter, node⟩ (Collector.mk true session) =
      enter registry node ⟨true, session⟩ := rfl
  rw [h, enter, Session.record, node.message?_eq registry]
  cases node.markFault? registry with
  | some fault => rfl
  | none => cases node.markedMessage? registry <;> simp

theorem answer_leave (registry : Registry) (node : Tree) (collector : Collector) :
    Visitor.answer registry ⟨.leave, node⟩ collector = (none, collector) := rfl

/-- A node with a fault has no message. -/
theorem markedMessage?_of_markFault? {registry : Registry} {node : Tree} {fault : CallFault}
    (h : node.markFault? registry = some fault) : node.markedMessage? registry = none := by
  have hcount := Tree.given_count registry node
  cases hm : node.markedMessage? registry with
  | none => rfl
  | some message =>
    rw [h, hm] at hcount
    split at hcount <;> simp at hcount

/-- An enabled collector finds fault with the nodes that it enters, whatever it has gathered. -/
theorem answers_eq (registry : Registry) (session : Session) (cs : List Callback) :
    Visitor.answers registry (Collector.mk true session) cs =
      cs.map fun c => ⟨c, if c.moment = .enter then c.node.markFault? registry else none⟩ := by
  induction cs generalizing session with
  | nil => rfl
  | cons c cs ih =>
    obtain ⟨moment, node⟩ := c
    cases moment with
    | leave => simp [Visitor.answers, answer_leave, ih]
    | enter => cases hf : node.markFault? registry <;> simp [Visitor.answers, answer_enter, hf, ih]

theorem reported_eq (registry : Registry) (session : Session) (cs : List Callback) :
    Visitor.reported registry (Collector.mk true session) cs =
      (nodesEntered cs).filterMap (Tree.markFault? registry) := by
  rw [Visitor.reported, answers_eq]
  induction cs with
  | nil => rfl
  | cons c cs ih =>
    obtain ⟨moment, node⟩ := c
    cases moment <;> cases hf : node.markFault? registry <;>
      simp_all [nodesEntered_cons]

theorem after_eq (registry : Registry) (session : Session) (cs : List Callback) :
    Visitor.after registry (Collector.mk true session) cs =
      ⟨true, ⟨session.messages ++
        ((nodesEntered cs).filterMap (Tree.markedMessage? registry)).toArray⟩⟩ := by
  induction cs generalizing session with
  | nil => simp [Visitor.after, nodesEntered]
  | cons c cs ih =>
    obtain ⟨moment, node⟩ := c
    cases moment with
    | leave => simp [Visitor.after, answer_leave, nodesEntered_cons, ih]
    | enter =>
      cases hf : node.markFault? registry with
      | some fault =>
        have hm := markedMessage?_of_markFault? hf
        simp [Visitor.after, answer_enter, nodesEntered_cons, hf, hm, ih]
      | none =>
        cases hm : node.markedMessage? registry <;>
          simp [Visitor.after, answer_enter, nodesEntered_cons, hf, hm, ih]

theorem collect_skip_eq (session : Session) (registry : Registry) (root : Tree) :
    (Collector.mk true session).collect .skip registry root =
      (⟨true, ⟨session.messages ++
          (root.nodes.filterMap (Tree.markedMessage? registry)).toArray⟩⟩,
        .ok { visited := root.nodes.length
              faults := (root.nodes.filterMap (Tree.markFault? registry)).toArray }) := by
  have hnodes : nodesEntered root.callbacks = root.nodes := root.entered_callbacks
  simp [collect, Traverser.traverse_skip, Traverser.sort_singleton, reported_eq, after_eq, hnodes,
    Tree.entered_length]

/-- Aborting differs from skipping only if there is a fault, and then it fails with the first. -/
theorem collect_abort_eq (session : Session) (registry : Registry) (root : Tree) :
    match root.nodes.filterMap (Tree.markFault? registry) with
    | [] => (Collector.mk true session).collect .abort registry root =
        (Collector.mk true session).collect .skip registry root
    | fault :: _ =>
      ((Collector.mk true session).collect .abort registry root).2 = .error fault := by
  have hreported : Visitor.reported registry (Collector.mk true session) root.callbacks =
      root.nodes.filterMap (Tree.markFault? registry) := by
    rw [reported_eq]
    exact congrArg _ root.entered_callbacks
  split
  · rename_i hnone
    have hall : ∀ v ∈ Traverser.sort [Collector.mk true session],
        Visitor.reported registry v root.callbacks = [] := by
      simp [Traverser.sort_singleton, hreported, hnone]
    rw [collect, collect, Traverser.traverse_abort_of_no_fault hall]
  · rename_i fault faults hfaults
    rw [hfaults] at hreported
    obtain ⟨before, a, later, first, hanswers, hbefore, ha⟩ :=
      Traverser.exists_first_fault registry (Collector.mk true session) root.callbacks
        (by rw [hreported]; simp)
    have hfirst : first = fault := by
      have hnone : before.filterMap Answer.fault? = [] := by simpa using hbefore
      have hcons : first :: later.filterMap Answer.fault? = fault :: faults := by
        simpa [Visitor.reported, hanswers, hnone, ha] using hreported
      exact (List.cons.inj hcons).1
    subst hfirst
    have hsort : Traverser.sort [Collector.mk true session] =
        [] ++ Collector.mk true session :: [] := Traverser.sort_singleton _
    rw [collect, Traverser.traverse_abort_of_fault hsort (by simp) hanswers hbefore ha]

/-- `harvest` gives the messages of a tree without faults, and else fails with the first fault. -/
theorem harvest_eq (registry : Registry) (root : Tree) :
    harvest registry root =
      match root.nodes.filterMap (Tree.markFault? registry) with
      | [] => .ok (root.nodes.filterMap (Tree.markedMessage? registry)).toArray
      | fault :: _ => .error fault := by
  have habort := collect_abort_eq {} registry root
  have hready : Collector.ready = Collector.mk true {} := rfl
  simp only [harvest, hready]
  split at habort
  · rename_i hnone
    rw [habort, collect_skip_eq, hnone]
    simp [Collector.messages]
  · rename_i fault rest hfaults
    cases hrun : (Collector.mk true {}).collect .abort registry root with
    | mk collector outcome =>
      rw [hrun] at habort
      simp only at habort
      rw [habort]

/-- Led through a tree that is skipped through, a collector gathers one message from each
well-formed call to a marker and reports one fault for each malformed one, in document order, and
no call gives both or neither. `harvest` gives the same messages if there are no faults, and else
fails with the first. -/
theorem collect_skip (session : Session) (registry : Registry) (root : Tree) :
    let messages := root.nodes.filterMap (Tree.markedMessage? registry)
    let faults := root.nodes.filterMap (Tree.markFault? registry)
    (Collector.mk true session).collect .skip registry root =
        (⟨true, ⟨session.messages ++ messages.toArray⟩⟩,
          .ok { visited := root.nodes.length, faults := faults.toArray }) ∧
      (∀ node : Tree, (node.markedMessage? registry).toList.length +
        (node.markFault? registry).toList.length = if node.isMark then 1 else 0) ∧
      messages.length + faults.length = root.nodes.countP Tree.isMark ∧
      harvest registry root =
        match faults with
        | [] => .ok messages.toArray
        | fault :: _ => .error fault := by
  intro messages faults
  exact ⟨collect_skip_eq session registry root, Tree.given_count registry,
    Tree.given_length registry root.nodes, harvest_eq registry root⟩

end Collector

end MessageHarvest
