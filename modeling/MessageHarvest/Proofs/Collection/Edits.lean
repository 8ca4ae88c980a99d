import MessageHarvest.Proofs.Collection
import Mathlib.Logic.Relation

/-!
# What a collector does not look at

A collector looks at the calls to markers, at their lines and at the literals that are their first
arguments. It does not look at the lines of literals, at other literals, at what other nodes are
called, or at the number of nodes around a call.

* `Tree.marks` lists what a collector looks at. `Tree.giveSame_of_marks`: trees that agree in it
  give the same.
* `Tree.Edit` is a change in one place of a tree that leaves it alone.
* `Tree.giveSame_of_edits`: trees that go over into one another by such changes give the same.
-/

namespace MessageHarvest

namespace Tree

/-! ## What a collector looks at -/

/-- What a collector looks at in a call to a marker: its name, the literal that is its first
argument, if it has one and it is a literal, and its line. -/
structure Mark where
  name : String
  first : Option (Option Literal)
  line : UInt64
deriving DecidableEq, Repr

def mark? : Tree → Option Mark
  | call name arguments line =>
    if isMarker name then some ⟨name, arguments.head?.map literal?, line⟩ else none
  | _ => none

/-- The calls to markers in document order. -/
def marks (t : Tree) : List Mark :=
  t.nodes.filterMap mark?

/-- The plainest call in which a collector sees this. -/
def Mark.node (mark : Mark) : Tree :=
  match mark.first with
  | none => call mark.name [] mark.line
  | some none => call mark.name [other "name" [] mark.line] mark.line
  | some (some value) => call mark.name [literal value mark.line] mark.line

theorem marks_eq (t : Tree) : t.marks = t.mark?.toList ++ t.children.flatMap marks := by
  have hparts : (t.children.flatMap nodes).filterMap mark? = t.children.flatMap marks :=
    List.filterMap_flatMap
  rw [marks, nodes_eq, nodesOfAll_eq_flatMap]
  cases h : t.mark? <;> simp [h, hparts]

section

variable (registry : Registry) (node : Tree)

theorem markedMessage?_eq_bind :
    node.markedMessage? registry =
      node.mark?.bind fun mark => mark.node.markedMessage? registry := by
  cases node with
  | literal value line => rfl
  | other name children line => rfl
  | call name arguments line =>
    cases hm : isMarker name <;>
      rcases arguments with _ | ⟨⟨_, _, _⟩ | ⟨_ | _ | _ | _, _⟩ | ⟨_, _, _⟩, rest⟩ <;>
      simp [mark?, hm, Mark.node, markedMessage?, literal?, isMark_call]

theorem markFault?_eq_bind :
    node.markFault? registry = node.mark?.bind fun mark => mark.node.markFault? registry := by
  cases node with
  | literal value line => rfl
  | other name children line => rfl
  | call name arguments line =>
    cases hm : isMarker name <;>
      rcases arguments with _ | ⟨⟨_, _, _⟩ | ⟨_ | _ | _ | _, _⟩ | ⟨_, _, _⟩, rest⟩ <;>
      simp [mark?, hm, Mark.node, markFault?, literal?, isMark_call]

end

theorem filterMap_markedMessage? (registry : Registry) (t : Tree) :
    t.nodes.filterMap (markedMessage? registry) =
      t.marks.filterMap fun mark => mark.node.markedMessage? registry := by
  rw [marks, List.filterMap_filterMap]
  exact congrArg (List.filterMap · t.nodes) (funext (markedMessage?_eq_bind registry))

theorem filterMap_markFault? (registry : Registry) (t : Tree) :
    t.nodes.filterMap (markFault? registry) =
      t.marks.filterMap fun mark => mark.node.markFault? registry := by
  rw [marks, List.filterMap_filterMap]
  exact congrArg (List.filterMap · t.nodes) (funext (markFault?_eq_bind registry))

/-! ## Trees that give the same -/

/-- Whether a collector gathers the same messages from both trees and reports the same faults, under
every registry and whatever it has gathered before. -/
def GiveSame (t u : Tree) : Prop :=
  ∀ (registry : Registry) (session : Session),
    (∃ collector faults visited visited',
      (Collector.mk true session).collect .skip registry t =
          (collector, .ok { visited, faults }) ∧
        (Collector.mk true session).collect .skip registry u =
          (collector, .ok { visited := visited', faults })) ∧
      harvest registry t = harvest registry u

theorem giveSame_of_marks {t u : Tree} (h : t.marks = u.marks) : GiveSame t u := by
  intro registry session
  have hmessages : t.nodes.filterMap (markedMessage? registry) =
      u.nodes.filterMap (markedMessage? registry) := by
    rw [filterMap_markedMessage?, filterMap_markedMessage?, h]
  have hfaults : t.nodes.filterMap (markFault? registry) =
      u.nodes.filterMap (markFault? registry) := by
    rw [filterMap_markFault?, filterMap_markFault?, h]
  constructor
  · refine ⟨_, _, t.nodes.length, u.nodes.length, Collector.collect_skip_eq session registry t, ?_⟩
    rw [Collector.collect_skip_eq, hmessages, hfaults]
  · rw [Collector.harvest_eq, Collector.harvest_eq, hmessages, hfaults]

/-! ## Changes -/

/-- A change in one place of a tree that a collector does not see. `First` says whether the tree is
the first argument of a call to a marker. -/
inductive Edit : (First : Prop) → Tree → Tree → Prop where
  /-- Another name or line for a node that is neither a call nor a literal. -/
  | rename {First : Prop} {name name' : String} {children : List Tree} {line line' : UInt64} :
      Edit First (other name children line) (other name' children line')
  /-- No call, in place of a call that is to no marker. -/
  | uncall {First : Prop} {name name' : String} {arguments : List Tree} {line line' : UInt64}
      (h : name ∉ ["_", "__", "_n", "__n"]) :
      Edit First (call name arguments line) (other name' arguments line')
  /-- A node around a tree. -/
  | wrap {First : Prop} {name : String} {t : Tree} {line : UInt64} (h : First → t.literal? = none) :
      Edit First t (other name [t] line)
  /-- Another line for a literal. -/
  | move {First : Prop} {value : Literal} {line line' : UInt64} :
      Edit First (literal value line) (literal value line')
  /-- Another literal. -/
  | replace {First : Prop} {value value' : Literal} {line : UInt64} (h : ¬ First) :
      Edit First (literal value line) (literal value' line)
  /-- A change in the first argument of a call. -/
  | firstArgument {First : Prop} {name : String} {t u : Tree} {after : List Tree} {line : UInt64}
      (h : Edit (name ∈ ["_", "__", "_n", "__n"]) t u) :
      Edit First (call name (t :: after) line) (call name (u :: after) line)
  /-- A change in another argument. -/
  | laterArgument {First : Prop} {name : String} {a t u : Tree} {before after : List Tree}
      {line : UInt64} (h : Edit False t u) :
      Edit First (call name (a :: (before ++ t :: after)) line)
        (call name (a :: (before ++ u :: after)) line)
  /-- A change in a part of a node that is no call. -/
  | child {First : Prop} {name : String} {t u : Tree} {before after : List Tree} {line : UInt64}
      (h : Edit False t u) :
      Edit First (other name (before ++ t :: after) line) (other name (before ++ u :: after) line)

theorem marks_call (name : String) (arguments : List Tree) (line : UInt64) :
    (call name arguments line).marks =
      (call name arguments line).mark?.toList ++ arguments.flatMap marks :=
  marks_eq _

theorem marks_other (name : String) (children : List Tree) (line : UInt64) :
    (other name children line).marks = children.flatMap marks :=
  marks_eq _

theorem mark?_of_not_mem {name : String} (h : name ∉ ["_", "__", "_n", "__n"])
    (arguments : List Tree) (line : UInt64) : (call name arguments line).mark? = none :=
  if_neg (mt isMarker_iff.mp h)

/-- Of a first argument only the literal counts. -/
theorem mark?_firstArgument {name : String} {t u : Tree}
    (h : name ∈ ["_", "__", "_n", "__n"] → t.literal? = u.literal?) (after : List Tree)
    (line : UInt64) :
    (call name (t :: after) line).mark? = (call name (u :: after) line).mark? := by
  by_cases hname : name ∈ ["_", "__", "_n", "__n"]
  · simp only [mark?, List.head?_cons, Option.map_some, h hname]
  · rw [mark?_of_not_mem hname, mark?_of_not_mem hname]

/-- A change leaves the marks as they are, and the literal too where that is looked at. -/
theorem Edit.marks_eq {First : Prop} {t u : Tree} (h : Edit First t u) :
    t.marks = u.marks ∧ (First → t.literal? = u.literal?) := by
  induction h with
  | rename => exact ⟨by rw [marks_other, marks_other], fun _ => rfl⟩
  | uncall hname =>
    refine ⟨?_, fun _ => rfl⟩
    rw [marks_call, marks_other, mark?_of_not_mem hname, Option.toList_none, List.nil_append]
  | wrap hliteral =>
    refine ⟨?_, hliteral⟩
    rw [marks_other, List.flatMap_singleton]
  | move => exact ⟨rfl, fun _ => rfl⟩
  | replace hfirst => exact ⟨rfl, fun h => absurd h hfirst⟩
  | firstArgument _ ih =>
    refine ⟨?_, fun _ => rfl⟩
    rw [marks_call, marks_call, mark?_firstArgument ih.2, List.flatMap_cons, List.flatMap_cons,
      ih.1]
  | laterArgument _ ih =>
    refine ⟨?_, fun _ => rfl⟩
    rw [marks_call, marks_call, mark?_firstArgument fun _ => rfl]
    simp only [List.flatMap_cons, List.flatMap_append, ih.1]
    rfl
  | child _ ih =>
    refine ⟨?_, fun _ => rfl⟩
    simp only [marks_other, List.flatMap_cons, List.flatMap_append, ih.1]

/-- Any number of changes leave the marks as they are, made or undone. -/
theorem marks_eq_of_edits {t u : Tree} (h : Relation.EqvGen (Edit False) t u) :
    t.marks = u.marks := by
  induction h with
  | rel t u h => exact h.marks_eq.1
  | refl t => rfl
  | symm t u _ ih => exact ih.symm
  | trans t u v _ _ ih ih' => exact ih.trans ih'

/-- A collector sees no difference between trees that go over into one another by changes outside
the calls to markers and their first arguments. -/
theorem giveSame_of_edits {t u : Tree} (h : Relation.EqvGen (Edit False) t u) :
    t.marks = u.marks ∧ GiveSame t u :=
  ⟨marks_eq_of_edits h, giveSame_of_marks (marks_eq_of_edits h)⟩

/-- A call to a marker with another argument behind the text. -/
def greeting (textLine : UInt64) (count : Tree) : Tree :=
  call "_" [literal (.string "Hello") textLine, count] 3

/-- The text on another line, something else in place of a call, and a block around all. -/
theorem giveSame_greeting :
    let page := other "module" [greeting 3 (call "count" [literal .null 3] 3)] 1
    let edited := other "module" [other "block"
      [greeting 9 (other "count" [literal (.bool true) 3] 4)] 2] 1
    Relation.EqvGen (Edit False) page edited ∧ page.marks = edited.marks ∧
      GiveSame page edited := by
  intro page edited
  have inModule : ∀ {t u : Tree}, Edit False t u →
      Relation.EqvGen (Edit False) (other "module" [t] 1) (other "module" [u] 1) :=
    fun h => .rel _ _ (@Edit.child _ _ _ _ [] [] _ h)
  have hcount : ∀ {t u : Tree}, Edit False t u → Edit False (greeting 9 t) (greeting 9 u) :=
    fun h => @Edit.laterArgument _ _ _ _ _ [] [] _ h
  have hedits : Relation.EqvGen (Edit False) page edited :=
    .trans _ _ _ (inModule (.firstArgument .move))
      (.trans _ _ _ (inModule (hcount (.uncall (by decide))))
        (.trans _ _ _ (inModule (hcount (@Edit.child _ _ _ _ [] [] _ (.replace id))))
          (inModule (.wrap nofun))))
  exact ⟨hedits, giveSame_of_edits hedits⟩

end Tree

end MessageHarvest
