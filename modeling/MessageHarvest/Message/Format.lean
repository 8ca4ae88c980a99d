import MessageHarvest.Message
import MessageHarvest.Json.Field
import MessageHarvest.Json.Write

/-!
# The written form of messages

A message is written as an object of all its fields, those that are absent as null. It is read from
such an object, its fields in any order, or from the list of its fields.
-/

namespace MessageHarvest.Message

def optionalJson : Option String → Json
  | some text => .string text
  | none => .null

def toJson (message : Message) : Json :=
  .object [("text", .string message.text), ("plural_text", optionalJson message.plural),
    ("domain", .string message.domain), ("notes", optionalJson message.notes),
    ("context", optionalJson message.context), ("line", .number (.natural message.line))]

def write (message : Message) : String :=
  message.toJson.compact

/-- The fields of a message that have been read so far. -/
structure Fields where
  text : Option String := none
  plural : Option (Option String) := none
  domain : Option String := none
  notes : Option (Option String) := none
  context : Option (Option String) := none
  line : Option UInt64 := none

def readField (bound : Nat) (fields : Fields) (key : String) : Json.Reader Fields :=
    fun source => do
  match key with
  | "text" =>
    let (text, rest) ← Json.field key fields.text Json.text source
    return ({ fields with text }, rest)
  | "plural_text" =>
    let (plural, rest) ← Json.field key fields.plural (Json.optional Json.text) source
    return ({ fields with plural }, rest)
  | "domain" =>
    let (domain, rest) ← Json.field key fields.domain Json.text source
    return ({ fields with domain }, rest)
  | "notes" =>
    let (notes, rest) ← Json.field key fields.notes (Json.optional Json.text) source
    return ({ fields with notes }, rest)
  | "context" =>
    let (context, rest) ← Json.field key fields.context (Json.optional Json.text) source
    return ({ fields with context }, rest)
  | "line" =>
    let (line, rest) ← Json.field key fields.line Json.line source
    return ({ fields with line }, rest)
  | _ => return (fields, ← Json.unknownField bound source)

/-- Reads the fields of a message up to the end of the object. Those that may be absent may be
missing. -/
def ofObject (bound : Nat) : Json.Reader Message := fun source => do
  let (fields, rest) ← Json.Container.foldEntries (readField bound) bound true {} source
  let text ← Json.required "text" fields.text rest
  let domain ← Json.required "domain" fields.domain rest
  let line ← Json.required "line" fields.line rest
  let message : Message :=
    { text, plural := fields.plural.getD none, domain, notes := fields.notes.getD none
      context := fields.context.getD none, line }
  return (message, rest)

/-- Reads all fields of a message in order up to the end of the list. -/
def ofList : Json.Reader Message := fun source => do
  let whole := "struct ExtractionRecord with 6 elements"
  let (text, rest) ← Json.element 0 whole Json.text source
  let (plural, rest) ← Json.element 1 whole (Json.optional Json.text) rest
  let (domain, rest) ← Json.element 2 whole Json.text rest
  let (notes, rest) ← Json.element 3 whole (Json.optional Json.text) rest
  let (context, rest) ← Json.element 4 whole (Json.optional Json.text) rest
  let (line, rest) ← Json.element 5 whole Json.line rest
  return ({ text, plural, domain, notes, context, line }, ← Json.Container.endList rest)

def reader (bound : Nat) : Json.Reader Message :=
  Json.record "struct ExtractionRecord" ofList (ofObject bound)

/-- The message that a text stands for. -/
def parse (source : String) : Except Json.ReadError Message :=
  Json.read reader source

end MessageHarvest.Message
