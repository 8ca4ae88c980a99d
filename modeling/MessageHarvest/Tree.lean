/-!
# Template trees

A template is read as a tree of calls, literals and other constructs, each on a line of
the template. A node stands for a call if its callee is known by name; everything that is
neither a call nor a literal (blocks, variables, the template itself) is `Tree.other`, so
that the tree keeps its shape whatever the template language.

* `Tree.children` is the one view of a node's parts: the arguments of a call, the children
  of another construct, nothing for a literal.
* `Tree.nodes` lists all nodes in document order, a node before its parts.
* `Tree.ofChildren`: what a node has if its parts have it, every tree has.
-/

namespace MessageHarvest

/-! ## Literals -/

/-- A literal value of a template. -/
inductive Literal where
  | string (text : String)
  | number (value : Float)
  | bool (value : Bool)
  | null
deriving DecidableEq, Repr, Inhabited

namespace Literal

/-- The text of a string literal. -/
def text? : Literal → Option String
  | string text => some text
  | _ => none

end Literal

/-! ## Nodes -/

/-- A node of a template tree, with the line it starts on. -/
inductive Tree where
  | call (name : String) (arguments : List Tree) (line : UInt64)
  | literal (value : Literal) (line : UInt64)
  | other (name : String) (children : List Tree) (line : UInt64)
deriving Repr, Inhabited

namespace Tree

/-- The three kinds of node. -/
inductive Kind where
  | call
  | literal
  | other
deriving DecidableEq, Repr

def kind : Tree → Kind
  | call .. => .call
  | literal .. => .literal
  | other .. => .other

def line : Tree → UInt64
  | call _ _ line => line
  | literal _ line => line
  | other _ _ line => line

/-- The parts of a node in document order. -/
def children : Tree → List Tree
  | call _ arguments _ => arguments
  | literal .. => []
  | other _ children _ => children

/-- The name that a call calls. -/
def callee? : Tree → Option String
  | call name _ _ => some name
  | _ => none

def arguments? : Tree → Option (List Tree)
  | call _ arguments _ => some arguments
  | _ => none

def literal? : Tree → Option Literal
  | literal value _ => some value
  | _ => none

mutual

/-- All nodes of the tree in document order, each before its parts. -/
def nodes : Tree → List Tree
  | call name arguments line => call name arguments line :: nodesOfAll arguments
  | literal value line => [literal value line]
  | other name children line => other name children line :: nodesOfAll children

/-- The nodes of a list of trees, one tree after the other. -/
def nodesOfAll : List Tree → List Tree
  | [] => []
  | t :: ts => t.nodes ++ nodesOfAll ts

end

theorem nodes_eq (t : Tree) : t.nodes = t :: nodesOfAll t.children := by
  cases t <;> simp [nodes, nodesOfAll, children]

theorem nodesOfAll_eq_flatMap (ts : List Tree) : nodesOfAll ts = ts.flatMap nodes := by
  induction ts with
  | nil => rfl
  | cons t ts ih => simp [nodesOfAll, ih]

/-! ## Induction on trees -/

section

variable {motive : Tree → Prop}

mutual

/-- What holds of a node if it holds of its parts, holds of every tree. -/
@[elab_as_elim]
theorem ofChildren (h : ∀ t, (∀ c ∈ t.children, motive c) → motive t) : ∀ t, motive t
  | call _ arguments _ => h _ (ofChildrenAll h arguments)
  | literal _ _ => h _ (fun _ hc => absurd hc List.not_mem_nil)
  | other _ children _ => h _ (ofChildrenAll h children)

theorem ofChildrenAll (h : ∀ t, (∀ c ∈ t.children, motive c) → motive t) :
    ∀ ts : List Tree, ∀ t ∈ ts, motive t
  | [], _, ht => absurd ht List.not_mem_nil
  | t :: ts, u, hu =>
    match List.mem_cons.mp hu with
    | .inl heq => heq ▸ ofChildren h t
    | .inr hmem => ofChildrenAll h ts u hmem

end

end

/-! ## Equality -/

mutual

/-- Equality of trees is decided node by node. -/
def decEq : (s t : Tree) → Decidable (s = t)
  | call f as l, call g bs m =>
    if h : f = g ∧ l = m then
      match decEqAll as bs with
      | isTrue hs => isTrue (by rw [h.1, h.2, hs])
      | isFalse hs => isFalse fun e => hs (Tree.call.inj e).2.1
    else isFalse fun e => h ⟨(Tree.call.inj e).1, (Tree.call.inj e).2.2⟩
  | literal v l, literal w m =>
    if h : v = w ∧ l = m then isTrue (by rw [h.1, h.2])
    else isFalse fun e => h (Tree.literal.inj e)
  | other f as l, other g bs m =>
    if h : f = g ∧ l = m then
      match decEqAll as bs with
      | isTrue hs => isTrue (by rw [h.1, h.2, hs])
      | isFalse hs => isFalse fun e => hs (Tree.other.inj e).2.1
    else isFalse fun e => h ⟨(Tree.other.inj e).1, (Tree.other.inj e).2.2⟩
  | call .., literal .. => isFalse nofun
  | call .., other .. => isFalse nofun
  | literal .., call .. => isFalse nofun
  | literal .., other .. => isFalse nofun
  | other .., call .. => isFalse nofun
  | other .., literal .. => isFalse nofun

/-- Equality of lists of trees. -/
def decEqAll : (ss ts : List Tree) → Decidable (ss = ts)
  | [], [] => isTrue rfl
  | s :: ss, t :: ts =>
    match decEq s t, decEqAll ss ts with
    | isTrue h, isTrue hs => isTrue (by rw [h, hs])
    | isFalse h, _ => isFalse fun e => h (List.cons.inj e).1
    | _, isFalse hs => isFalse fun e => hs (List.cons.inj e).2
  | [], _ :: _ => isFalse nofun
  | _ :: _, [] => isFalse nofun

end

instance : DecidableEq Tree := decEq

end Tree

end MessageHarvest
