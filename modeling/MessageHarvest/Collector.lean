import MessageHarvest.Traversal

/-!
# Collecting messages

A `Session` gathers the messages of the calls it is shown. A `Collector` is the visitor that fills
a session while it is enabled; switching it on or off drops what it holds, and `Collector.renew`
hands the session over and starts the next.

* `harvest` collects the messages of one tree and fails at the first malformed call.
-/

namespace MessageHarvest

/-! ## Sessions -/

/-- The messages gathered so far, in the order of their calls. -/
structure Session where
  messages : Array Message := #[]
deriving DecidableEq, Repr

namespace Session

def size (session : Session) : Nat :=
  session.messages.size

def isEmpty (session : Session) : Bool :=
  session.messages.isEmpty

/-- Gathers the message of a node, if it marks one. Answers whether it did. -/
def record (session : Session) (registry : Registry) (node : Tree) :
    Except CallFault (Bool × Session) :=
  match node.message? registry with
  | .ok (some message) => .ok (true, ⟨session.messages.push message⟩)
  | .ok none => .ok (false, session)
  | .error fault => .error fault

end Session

/-! ## The visitor -/

/-- Fills its session from the calls of the trees it visits, while it is enabled. -/
structure Collector where
  enabled : Bool := false
  session : Session := {}
deriving DecidableEq, Repr

namespace Collector

def messages (collector : Collector) : Array Message :=
  collector.session.messages

/-- Starts a new session and hands over the one before. -/
def renew (collector : Collector) : Session × Collector :=
  (collector.session, { collector with session := {} })

def enable (_collector : Collector) : Collector where
  enabled := true

def disable (_collector : Collector) : Collector where
  enabled := false

/-- Gathers the message of the node; a malformed call is reported and leaves the session alone. -/
def enter (registry : Registry) (node : Tree) (collector : Collector) :
    Option CallFault × Collector :=
  if collector.enabled then
    match collector.session.record registry node with
    | .ok (_, session) => (none, { collector with session })
    | .error fault => (some fault, collector)
  else (none, collector)

instance : Visitor Collector where
  priority _ := 0
  enter := enter
  leave _ _ collector := (none, collector)

end Collector

/-- A collector that is already enabled. -/
def Collector.ready : Collector := Collector.enable {}

/-- Leads one collector through a tree. -/
def Collector.collect (collector : Collector) (policy : FaultPolicy) (registry : Registry)
    (root : Tree) : Collector × Except CallFault TraversalReport :=
  let (traverser, outcome) := (Traverser.mk [collector] policy).traverse registry root
  (traverser.visitors.headD collector, outcome)

/-- The messages of a tree in document order, or the fault of its first malformed call. -/
def harvest (registry : Registry) (root : Tree) : Except CallFault (Array Message) :=
  match Collector.ready.collect .abort registry root with
  | (collector, .ok _) => .ok collector.messages
  | (_, .error fault) => .error fault

end MessageHarvest
