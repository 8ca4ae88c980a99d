import MessageHarvest.Tree
import MessageHarvest.Registry
import MessageHarvest.Message

/-!
# Calls that mark messages

A marker is one of four functions whose calls mark their first argument as a message.
`Tree.message?` reads the message off a node: nothing for a node that is no such call, a message
for a well-formed one, a fault for a malformed one. A call has at most one fault, the first of: its
marker is not registered, it has no argument, its first argument is no literal, that literal is no
string.
-/

namespace MessageHarvest

/-- The names of the markers. -/
def markers : List String := ["_", "__", "_n", "__n"]

def isMarker (name : String) : Bool :=
  markers.contains name

/-! ## Faults -/

/-- What is wrong with a call to a marker. -/
inductive CallFault.Cause where
  | missingArgument
  | nonLiteralArgument
  | nonStringLiteral
  | unregisteredFunction
deriving DecidableEq, Repr

/-- A malformed call to a marker: what is wrong, which one it calls, and on which line. -/
structure CallFault where
  cause : CallFault.Cause
  function : String
  line : UInt64
deriving DecidableEq, Repr

namespace CallFault

def message (fault : CallFault) : String :=
  match fault.cause with
  | .missingArgument => s!"call to '{fault.function}' on line {fault.line} has no arguments"
  | .nonLiteralArgument =>
    s!"first argument of '{fault.function}' on line {fault.line} is not a literal"
  | .nonStringLiteral =>
    s!"first argument of '{fault.function}' on line {fault.line} is not a string literal"
  | .unregisteredFunction =>
    s!"function '{fault.function}' used on line {fault.line} is not registered"

end CallFault

/-! ## Reading a call -/

namespace Tree

/-- The message that a call to the marker `name` with these arguments marks. -/
def messageOfCall (registry : Registry) (name : String) (arguments : List Tree) (line : UInt64) :
    Except CallFault Message :=
  if (registry.lookup name).isNone then .error ⟨.unregisteredFunction, name, line⟩
  else match arguments with
    | [] => .error ⟨.missingArgument, name, line⟩
    | literal (.string text) _ :: _ => .ok (.plain text line)
    | literal _ _ :: _ => .error ⟨.nonStringLiteral, name, line⟩
    | _ :: _ => .error ⟨.nonLiteralArgument, name, line⟩

/-- The message that the node itself marks, its parts left aside. -/
def message? (registry : Registry) : Tree → Except CallFault (Option Message)
  | call name arguments line =>
    if isMarker name then some <$> messageOfCall registry name arguments line
    else .ok none
  | _ => .ok none

end Tree

end MessageHarvest
