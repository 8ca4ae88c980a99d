import MessageHarvest.Json.Value

/-!
# Writing JSON

* `Json.compact` writes a value without white space.
* `Json.pretty` writes each item and entry on a line of its own, indented by two spaces for each
  container around it. An empty container stays on one line.

In strings only quotation marks, backslashes and the control characters below the space are escaped.
-/

namespace MessageHarvest.Json

/-! ## Strings -/

/-- The written form of a character in a string. -/
def stringChar (c : Char) : List Char :=
  if c = '"' then ['\\', '"']
  else if c = '\\' then ['\\', '\\']
  else if c = '\x08' then ['\\', 'b']
  else if c = '\x0c' then ['\\', 'f']
  else if c = '\n' then ['\\', 'n']
  else if c = '\r' then ['\\', 'r']
  else if c = '\t' then ['\\', 't']
  else if c.toNat < 0x20 then
    ['\\', 'u', '0', '0', Nat.digitChar (c.toNat / 16), Nat.digitChar (c.toNat % 16)]
  else [c]

def stringChars (text : String) : List Char :=
  '"' :: text.toList.flatMap stringChar ++ ['"']

def scalarChars : Json → List Char
  | bool true => "true".toList
  | bool false => "false".toList
  | number n => n.chars
  | string text => stringChars text
  | _ => "null".toList

/-! ## Compact form -/

mutual

def compactChars : Json → List Char
  | array items => '[' :: compactItems items ++ [']']
  | object entries => '\x7b' :: compactEntries entries ++ ['\x7d']
  | v => scalarChars v

/-- The items of a list, with commas between them. -/
def compactItems : List Json → List Char
  | [] => []
  | [v] => v.compactChars
  | v :: w :: vs => v.compactChars ++ ',' :: compactItems (w :: vs)

/-- The entries of an object, with commas between them. -/
def compactEntries : List (String × Json) → List Char
  | [] => []
  | [(key, v)] => stringChars key ++ ':' :: v.compactChars
  | (key, v) :: e :: es =>
    stringChars key ++ ':' :: v.compactChars ++ ',' :: compactEntries (e :: es)

end

def compact (v : Json) : String :=
  String.ofList v.compactChars

/-! ## Pretty form -/

/-- A line break and the indentation of a line inside `level` containers. -/
def newLine (level : Nat) : List Char :=
  '\n' :: List.replicate (2 * level) ' '

mutual

/-- The value inside `level` containers. -/
def prettyChars (level : Nat) : Json → List Char
  | array [] => ['[', ']']
  | array (v :: vs) => '[' :: prettyItems (level + 1) (v :: vs) ++ newLine level ++ [']']
  | object [] => ['\x7b', '\x7d']
  | object (e :: es) => '\x7b' :: prettyEntries (level + 1) (e :: es) ++ newLine level ++ ['\x7d']
  | v => scalarChars v

/-- The items of a list, each on a line. -/
def prettyItems (level : Nat) : List Json → List Char
  | [] => []
  | [v] => newLine level ++ v.prettyChars level
  | v :: w :: vs => newLine level ++ v.prettyChars level ++ ',' :: prettyItems level (w :: vs)

/-- The entries of an object, each on a line. -/
def prettyEntries (level : Nat) : List (String × Json) → List Char
  | [] => []
  | [(key, v)] => newLine level ++ stringChars key ++ ':' :: ' ' :: v.prettyChars level
  | (key, v) :: e :: es =>
    newLine level ++ stringChars key ++ ':' :: ' ' :: v.prettyChars level ++
      ',' :: prettyEntries level (e :: es)

end

def pretty (v : Json) : String :=
  String.ofList (v.prettyChars 0)

end MessageHarvest.Json
