import MessageHarvest.Tree
import MessageHarvest.Json.Field
import MessageHarvest.Json.Write

/-!
# The written form of trees

A node is written as an object that tells its kind. When trees are read, the fields may come in any
order and fields of other names are passed over; the parts of a node may be left out if there are
none. A node may also be written as a list, its kind first and then its fields in the order of
`Tree.toJson`.

Below the top node a tree is read from a value that has been read before, so that faults there have
no place in the text. There a kind may also be given by its index.

* `Tree.toJson` and `Tree.ofJson?` write and read the values.
* `Tree.parse` reads a tree from a text, `Tree.write` writes it as one.
-/

namespace MessageHarvest

namespace Tree

/-! ## Writing -/

def Kind.name : Kind → String
  | .call => "function_call"
  | .literal => "literal"
  | .other => "other"

/-- The name of the field that holds the parts of a node. -/
def Kind.partsField : Kind → String
  | .call => "arguments"
  | .literal => ""
  | .other => "children"

end Tree

namespace Literal

def toJson : Literal → Json
  | string text => .string text
  | number value => .number (.float value)
  | bool value => .bool value
  | null => .null

/-- A literal is any value but a list or an object. -/
def ofJson? : Json → Except Json.ShapeFault Literal
  | .string text => .ok (string text)
  | .number n => .ok (number n.toFloat)
  | .bool value => .ok (bool value)
  | .null => .ok null
  | _ => .error (.noVariant "LiteralValue")

end Literal

namespace Tree

/-- The value that stands for a line. -/
def lineJson (line : UInt64) : Json :=
  .number (.natural line)

mutual

def toJson : Tree → Json
  | call name arguments line =>
    .object [("kind", .string Kind.call.name), ("name", .string name),
      (Kind.call.partsField, .array (toJsonAll arguments)), ("line", lineJson line)]
  | literal value line =>
    .object [("kind", .string Kind.literal.name), ("value", value.toJson), ("line", lineJson line)]
  | other name children line =>
    .object [("kind", .string Kind.other.name), ("name", .string name),
      (Kind.other.partsField, .array (toJsonAll children)), ("line", lineJson line)]

def toJsonAll : List Tree → List Json
  | [] => []
  | t :: ts => t.toJson :: toJsonAll ts

end

def write (t : Tree) : String :=
  t.toJson.compact

/-! ## Reading the kind -/

namespace Kind

def all : List Kind := [.call, .literal, .other]

def ofName? (name : String) : Option Kind :=
  all.find? (·.name = name)

/-- The kind that a value names or counts. -/
def ofJson? : Json → Except Json.ShapeFault Kind
  | .string name =>
    match ofName? name with
    | some kind => .ok kind
    | none => .error (.unknownVariant name (all.map Kind.name))
  | .number (.natural n) =>
    match all[n.toNat]? with
    | some kind => .ok kind
    | none => .error (.wrongValue (.number (.natural n)) "variant index 0 <= i < 3")
  | v => .error (.wrongType (.ofValue v) "variant identifier")

/-- The kind that the entries of an object give. The first fault in the order of the entries counts.
-/
def ofEntries? (found : Option Kind) : List (String × Json) → Except Json.ShapeFault Kind
  | [] =>
    match found with
    | some kind => .ok kind
    | none => .error (.missingField "kind")
  | (key, v) :: entries =>
    if key = "kind" then
      match found with
      | some _ => .error (.duplicateField "kind")
      | none => do ofEntries? (some (← ofJson? v)) entries
    else ofEntries? found entries

end Kind

/-! ## Reading the fields -/

/-- The fields of a node that have been read so far. -/
structure Fields where
  name : Option String := none
  parts : Option (List Tree) := none
  value : Option Literal := none
  line : Option UInt64 := none

/-- A field that may be read only once. -/
def once {α : Type} (name : String) (slot : Option α) (value : Except Json.ShapeFault α) :
    Except Json.ShapeFault (Option α) :=
  match slot with
  | some _ => .error (.duplicateField name)
  | none => some <$> value

def demand {α : Type} (name : String) (slot : Option α) : Except Json.ShapeFault α :=
  match slot with
  | some a => .ok a
  | none => .error (.missingField name)

/-- The node with these fields. Parts may be missing, no other field of the kind. -/
def ofFields (kind : Kind) (fields : Fields) : Except Json.ShapeFault Tree :=
  match kind with
  | .literal => do
    let value ← demand "value" fields.value
    return literal value (← demand "line" fields.line)
  | .call => do
    let name ← demand "name" fields.name
    return call name (fields.parts.getD []) (← demand "line" fields.line)
  | .other => do
    let name ← demand "name" fields.name
    return other name (fields.parts.getD []) (← demand "line" fields.line)

def nameOfJson? : Json → Except Json.ShapeFault String
  | .string text => .ok text
  | v => .error (.wrongType (.ofValue v) "a string")

def lineOfJson? : Json → Except Json.ShapeFault UInt64
  | .number n => Json.lineOfNumber n
  | v => .error (.wrongType (.ofValue v) "usize")

/-- What a record of the kind is called where its length is wrong. -/
def wholeRecord : Kind → String
  | .call => "struct variant SyntaxNode::FunctionCall with 3 elements"
  | .literal => "struct variant SyntaxNode::Literal with 2 elements"
  | .other => "struct variant SyntaxNode::Other with 3 elements"

/-- Refuses items that a record of `length` fields has no place for. -/
def refuseMore {α : Type} (length : Nat) (result : α) : List Json → Except Json.ShapeFault α
  | [] => .ok result
  | more => .error (.wrongLength (length + more.length) s!"{length} elements in sequence")

mutual

def ofJson? : Json → Except Json.ShapeFault Tree
  | .object entries => do
    let kind ← Kind.ofEntries? none entries
    ofFields kind (← fieldsOfEntries kind {} entries)
  | .array [] => .error (.missingField "kind")
  | .array (kind :: items) => do ofItems (← Kind.ofJson? kind) items
  | v => .error (.wrongType (.ofValue v) "internally tagged enum SyntaxNode")

/-- The fields of a node written as an object. -/
def fieldsOfEntries (kind : Kind) (fields : Fields) :
    List (String × Json) → Except Json.ShapeFault Fields
  | [] => .ok fields
  | (key, v) :: entries =>
    if key = "line" then do
      let line ← once key fields.line (lineOfJson? v)
      fieldsOfEntries kind { fields with line } entries
    else if kind = .literal then
      if key = "value" then do
        let value ← once key fields.value (Literal.ofJson? v)
        fieldsOfEntries kind { fields with value } entries
      else fieldsOfEntries kind fields entries
    else if key = "name" then do
      let name ← once key fields.name (nameOfJson? v)
      fieldsOfEntries kind { fields with name } entries
    else if key = kind.partsField then do
      let parts ← once key fields.parts (partsOfJson? v)
      fieldsOfEntries kind { fields with parts } entries
    else fieldsOfEntries kind fields entries

/-- The node whose fields are the items of a list. -/
def ofItems (kind : Kind) : List Json → Except Json.ShapeFault Tree
  | [] => .error (.wrongLength 0 (wholeRecord kind))
  | first :: items =>
    match kind with
    | .literal => do
      let value ← Literal.ofJson? first
      match items with
      | [] => .error (.wrongLength 1 (wholeRecord kind))
      | line :: more => refuseMore 2 (literal value (← lineOfJson? line)) more
    | kind => do
      let name ← nameOfJson? first
      match items with
      | [] => .error (.wrongLength 2 (wholeRecord kind))
      | parts :: items =>
        let parts ← partsOfJson? parts
        match items with
        | [] => .error (.wrongLength 2 (wholeRecord kind))
        | line :: more =>
          let line ← lineOfJson? line
          refuseMore 3 (if kind = .call then call name parts line else other name parts line) more

/-- The parts of a node. -/
def partsOfJson? : Json → Except Json.ShapeFault (List Tree)
  | .array items => treesOfItems items
  | v => .error (.wrongType (.ofValue v) "a sequence")

def treesOfItems : List Json → Except Json.ShapeFault (List Tree)
  | [] => .ok []
  | v :: vs => do
    let t ← ofJson? v
    return t :: (← treesOfItems vs)

end

/-! ## Reading texts -/

/-- What is known of the top node when its text has been read. -/
inductive Draft where
  | entries (kind : Kind) (entries : List (String × Json))
  | items (kind : Kind) (items : List Json)

def kindReader : Json.Reader Kind := fun text => do
  let (name, rest) ← Json.variant (Kind.all.map Kind.name) text
  return ((Kind.ofName? name).getD .other, rest)

/-- The entries of the top node, and its kind once it has been read. -/
def topEntries (bound : Nat) : Json.Reader Draft := fun text => do
  let entry (state : Option Kind × List (String × Json)) (key : String) (text : List Char) := do
    let (kind, done) := state
    if key = "kind" then
      let (kind, rest) ← Json.field key kind kindReader text
      return ((kind, done), rest)
    else
      let (v, rest) ← Json.value (Json.maxDepth - 1) bound (← Json.Container.colon text)
      return ((kind, (key, v) :: done), rest)
  let ((kind, done), rest) ← Json.Container.foldEntries entry bound true (none, []) text
  let kind ← Json.required "kind" kind rest
  return (.entries kind done.reverse, rest)

/-- The kind and the fields of a top node written as a list. -/
def topItems (bound : Nat) : Json.Reader Draft := fun text => do
  match ← Json.element? true kindReader text with
  | (none, rest) => Json.misfit (.missingField "kind") (Json.Container.giveUp ']' rest)
  | (some kind, rest) =>
    let item (done : List Json) (text : List Char) := do
      let (v, rest) ← Json.value (Json.maxDepth - 1) bound text
      return (v :: done, rest)
    let (done, rest) ← Json.Container.foldItems item bound false [] rest
    return (.items kind done.reverse, rest)

def ofDraft : Draft → Except Json.ShapeFault Tree
  | .entries kind entries => do ofFields kind (← fieldsOfEntries kind {} entries)
  | .items kind items => ofItems kind items

/-- Reads a tree. Faults in its fields are found when the whole node has been read, and have no
place. -/
def reader (bound : Nat) : Json.Reader Tree := fun text => do
  let (draft, rest) ←
    Json.record "internally tagged enum SyntaxNode" (topItems bound) (topEntries bound) text
  match ofDraft draft with
  | .ok t => return (t, rest)
  | .error fault => .error ⟨.shape fault, none⟩

/-- The tree that a text stands for. -/
def parse (source : String) : Except Json.ReadError Tree :=
  Json.read reader source

end Tree

end MessageHarvest
