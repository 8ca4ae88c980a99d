import MessageHarvest.Call

/-!
# Traversals

A traversal leads visitors through a tree. A visitor is a state machine: it answers each callback
with a new state and perhaps a fault. Each visitor makes one pass of its own, in ascending order of
priority and, among equals, in the order in which they were added.

* `Tree.callbacks` is the schedule of a complete pass: a node is entered, then its parts are
  passed through in order, then it is left.
* `Tree.pass_eq_foldl`: the recursive pass is that schedule, played callback by callback.
* `Pass.step`: a fault ends the traversal under `FaultPolicy.abort`; under `FaultPolicy.skip` it is
  kept and the pass goes on, into the parts of the faulty node too.
-/

namespace MessageHarvest

/-- What a traversal does when a visitor reports a fault. -/
inductive FaultPolicy where
  | abort
  | skip
deriving DecidableEq, Repr

namespace FaultPolicy

instance : Inhabited FaultPolicy := ⟨.skip⟩

def name : FaultPolicy → String
  | abort => "abort"
  | skip => "skip"

def all : List FaultPolicy := [abort, skip]

def ofName? (name : String) : Option FaultPolicy :=
  all.find? (·.name = name)

end FaultPolicy

/-! ## Visitors -/

/-- Types whose values visit trees. A callback answers with the fault it reports, if any, and the
visitor's new state. -/
class Visitor (σ : Type) where
  priority : σ → Int
  enter : Registry → Tree → σ → Option CallFault × σ
  leave : Registry → Tree → σ → Option CallFault × σ

/-- The two moments at which a visitor meets a node. -/
inductive Moment where
  | enter
  | leave
deriving DecidableEq, Repr

/-- One meeting of a visitor with a node. -/
structure Callback where
  moment : Moment
  node : Tree
deriving DecidableEq, Repr

/-- The visitor's answer to a callback. -/
def Visitor.answer {σ : Type} [Visitor σ] (registry : Registry) (callback : Callback)
    (visitor : σ) : Option CallFault × σ :=
  match callback.moment with
  | .enter => enter registry callback.node visitor
  | .leave => leave registry callback.node visitor

/-! ## One pass -/

/-- A pass under way: the visitor, the nodes entered and the faults kept so far, and the fault that
halted it, if one did. -/
structure Pass (σ : Type) where
  visitor : σ
  visited : Nat := 0
  faults : Array CallFault := #[]
  halt : Option CallFault := none

namespace Pass

variable {σ : Type} [Visitor σ]

/-- Makes one callback, unless the pass has been halted. -/
def step (policy : FaultPolicy) (registry : Registry) (p : Pass σ) (callback : Callback) : Pass σ :=
  match p.halt with
  | some _ => p
  | none =>
    let (fault?, visitor) := Visitor.answer registry callback p.visitor
    let visited := if callback.moment = .enter then p.visited + 1 else p.visited
    match fault?, policy with
    | none, _ => { p with visitor, visited }
    | some fault, .skip => { p with visitor, visited, faults := p.faults.push fault }
    | some fault, .abort => { p with visitor, visited, halt := some fault }

end Pass

namespace Tree

mutual

/-- The callbacks of a complete pass through the tree. -/
def callbacks : Tree → List Callback
  | call name arguments line =>
    ⟨.enter, call name arguments line⟩ ::
      (callbacksOfAll arguments ++ [⟨.leave, call name arguments line⟩])
  | literal value line => [⟨.enter, literal value line⟩, ⟨.leave, literal value line⟩]
  | other name children line =>
    ⟨.enter, other name children line⟩ ::
      (callbacksOfAll children ++ [⟨.leave, other name children line⟩])

/-- The callbacks of complete passes through the trees of a list, one after the other. -/
def callbacksOfAll : List Tree → List Callback
  | [] => []
  | t :: ts => t.callbacks ++ callbacksOfAll ts

end

section

variable {σ : Type} [Visitor σ] (policy : FaultPolicy) (registry : Registry)

mutual

/-- Leads the visitor of `p` through the tree. -/
def pass (p : Pass σ) : Tree → Pass σ
  | call name arguments line =>
    let node := call name arguments line
    (passAll (p.step policy registry ⟨.enter, node⟩) arguments).step policy registry ⟨.leave, node⟩
  | literal value line =>
    let node := literal value line
    (p.step policy registry ⟨.enter, node⟩).step policy registry ⟨.leave, node⟩
  | other name children line =>
    let node := other name children line
    (passAll (p.step policy registry ⟨.enter, node⟩) children).step policy registry ⟨.leave, node⟩

/-- Leads the visitor of `p` through the trees of a list. -/
def passAll (p : Pass σ) : List Tree → Pass σ
  | [] => p
  | t :: ts => passAll (pass p t) ts

end

mutual

/-- A pass makes the callbacks of `Tree.callbacks`, in that order. -/
theorem pass_eq_foldl (p : Pass σ) : (t : Tree) →
    pass policy registry p t = t.callbacks.foldl (Pass.step policy registry) p
  | call name arguments line => by
    simp [pass, callbacks, passAll_eq_foldl _ arguments]
  | literal value line => by simp [pass, callbacks]
  | other name children line => by
    simp [pass, callbacks, passAll_eq_foldl _ children]

theorem passAll_eq_foldl (p : Pass σ) : (ts : List Tree) →
    passAll policy registry p ts = (callbacksOfAll ts).foldl (Pass.step policy registry) p
  | [] => by simp [passAll, callbacksOfAll]
  | t :: ts => by simp [passAll, callbacksOfAll, pass_eq_foldl p t, passAll_eq_foldl _ ts]

end

end

end Tree

/-! ## Traversals -/

/-- The outcome of a traversal that was not halted: how often a node was entered, and all faults in
the order of the callbacks that reported them. -/
structure TraversalReport where
  visited : Nat := 0
  faults : Array CallFault := #[]
deriving DecidableEq, Repr

/-- Visitors in the order of their next passes. -/
structure Traverser (σ : Type) where
  visitors : List σ := []
  policy : FaultPolicy := default

namespace Traverser

variable {σ : Type} [Visitor σ]

def add (traverser : Traverser σ) (visitor : σ) : Traverser σ :=
  { traverser with visitors := traverser.visitors ++ [visitor] }

/-- The order of passes: by priority, and stable. -/
def sort (visitors : List σ) : List σ :=
  visitors.mergeSort fun v w => Visitor.priority v ≤ Visitor.priority w

/-- Lets each visitor make its pass and continues the report. After a halt the visitors that remain
are left as they were. -/
def passInTurn (policy : FaultPolicy) (registry : Registry) (root : Tree) :
    List σ → TraversalReport → List σ × Except CallFault TraversalReport
  | [], report => ([], .ok report)
  | v :: vs, report =>
    let p := root.pass policy registry
      { visitor := v, visited := report.visited, faults := report.faults }
    match p.halt with
    | some fault => (p.visitor :: vs, .error fault)
    | none =>
      let (ws, outcome) := passInTurn policy registry root vs ⟨p.visited, p.faults⟩
      (p.visitor :: ws, outcome)

/-- Leads all visitors through the tree. The order of the passes stays for the traversals to come.
-/
def traverse (traverser : Traverser σ) (registry : Registry) (root : Tree) :
    Traverser σ × Except CallFault TraversalReport :=
  let (visitors, outcome) :=
    passInTurn traverser.policy registry root (sort traverser.visitors) {}
  ({ traverser with visitors }, outcome)

end Traverser

end MessageHarvest
