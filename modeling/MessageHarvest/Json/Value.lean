import MessageHarvest.Decimal.Notation

/-!
# JSON values

An object keeps its entries in the order of the text, repeated keys included: whether a repetition
matters is for the reader of the object to say. An integer that fits in 64 bits stays an integer;
every other number is a float.

* `Json.depth` counts the containers that are open at the deepest place.
-/

namespace MessageHarvest

/-- A number of a JSON text. -/
inductive Json.Number where
  | natural (value : UInt64)
  | negative (value : Int64)
  | float (value : Float)
deriving DecidableEq, Repr

inductive Json where
  | null
  | bool (value : Bool)
  | number (value : Json.Number)
  | string (text : String)
  | array (items : List Json)
  | object (entries : List (String × Json))
deriving Repr, Inhabited

namespace Json

/-- The float nearest to a number. -/
def Number.toFloat : Number → Float
  | natural n => n.toFloat
  | negative n => n.toFloat
  | float x => x

/-- The text of a float; an infinity or NaN has none, so it is written as nothing would be. -/
def floatChars (x : Float) : List Char :=
  match Decimal.ofFloat? x with
  | some d => d.write Decimal.jsonRange
  | none => "null".toList

def Number.chars : Number → List Char
  | natural n => Nat.toDigits 10 n.toNat
  | negative n => (toString n.toInt).toList
  | float x => floatChars x

mutual

/-- The number of containers around the deepest place of a value, those of the value included. -/
def depth : Json → Nat
  | array items => depthOfItems items + 1
  | object entries => depthOfEntries entries + 1
  | _ => 0

def depthOfItems : List Json → Nat
  | [] => 0
  | v :: vs => max v.depth (depthOfItems vs)

def depthOfEntries : List (String × Json) → Nat
  | [] => 0
  | (_, v) :: es => max v.depth (depthOfEntries es)

end

end Json

end MessageHarvest
