import MessageHarvest.Json.Read

/-!
# Readers of a given shape

These readers expect a value of one shape and say what they found in its place. `Json.record` reads
a record, which may be written as an object, its fields in any order, or as a list of its fields.

* `Json.field` refuses a second field of the same name before it looks at the value.
* `Json.element?` reads the next field of a list, if there is one.
-/

namespace MessageHarvest.Json

/-- Stops at a value that is not what is expected. Words, numbers and strings are read first, so
that the place is after them, and a fault in them comes before the fault in the shape. -/
def mismatch {α : Type} (expected : String) (text : List Char) : Except Stop α :=
  let text := skipSpace text
  match scalar? text with
  | some (.ok (v, rest)) => misfit (.wrongType (.ofValue v) expected) rest
  | some (.error e) => .error e
  | none =>
    match text with
    | [] => stop .endOfValue [] 0
    | '[' :: _ => misfit (.wrongType .list expected) text
    | '\x7b' :: _ => misfit (.wrongType .object expected) text
    | text => stop .expectedValue text 1

/-- Reads a string; `expected` names what the string is. -/
def textAs (expected : String) : Reader String := fun text =>
  match skipSpace text with
  | '"' :: rest => Lexeme.string rest
  | text => mismatch expected text

def text : Reader String := textAs "a string"

/-- Reads one of the names in `known`. -/
def variant (known : List String) : Reader String := fun text => do
  let (name, rest) ← textAs "variant identifier" text
  if known.contains name then return (name, rest)
  else misfit (.unknownVariant name known) rest

/-- What a number is if no line can have it, or the line. -/
def lineOfNumber : Number → Except ShapeFault UInt64
  | .natural n => .ok n
  | .negative n => .error (.wrongValue (.number (.negative n)) "usize")
  | .float x => .error (.wrongType (.number (.float x)) "usize")

/-- Reads a line: a natural number of 64 bits. -/
def line : Reader UInt64 := fun text =>
  let text := skipSpace text
  let number := match text with
    | '-' :: rest => some (Lexeme.number false rest)
    | c :: _ => if c.isDigit then some (Lexeme.number true text) else none
    | [] => none
  match number with
  | none => mismatch "usize" text
  | some (.error e) => .error e
  | some (.ok (n, rest)) =>
    match lineOfNumber n with
    | .ok n => .ok (n, rest)
    | .error fault => misfit fault rest

/-- Reads null as nothing, and anything else with `reader`. -/
def optional {α : Type} (reader : Reader α) : Reader (Option α) := fun text =>
  match skipSpace text with
  | 'n' :: rest => (none, ·) <$> Lexeme.word ['u', 'l', 'l'] rest
  | text => (fun (a, rest) => (some a, rest)) <$> reader text

/-- Reads null. -/
def unit : Reader Unit := fun text =>
  match skipSpace text with
  | 'n' :: rest => ((), ·) <$> Lexeme.word ['u', 'l', 'l'] rest
  | text => mismatch "unit" text

/-- Reads a list of strings. -/
def texts (bound : Nat) : Reader (List String) := fun text =>
  match skipSpace text with
  | '[' :: rest =>
    let item (done : List String) (text : List Char) := do
      let (s, text) ← Json.text text
      return (s :: done, text)
    (fun (done, rest) => (done.reverse, rest)) <$> Container.foldItems item bound true [] rest
  | text => mismatch "a sequence" text

/-- Reads the one entry of an object that maps a name to null, up to the end of the object. -/
def caseEntry (known : List String) : Reader String := fun text => do
  match ← Container.nextKey? true text with
  | none => stop .expectedValue (skipSpace text) 1
  | some key =>
    let (name, rest) ← variant known ('"' :: key)
    let ((), rest) ← unit (← Container.colon rest)
    match skipSpace rest with
    | [] => stop .endOfObject [] 0
    | '\x7d' :: rest => return (name, rest)
    | rest => stop .expectedValue rest 0

/-- Reads the name of a case without contents: a string, or an object that maps the name to null. -/
def caseName (known : List String) : Reader String := fun text =>
  match skipSpace text with
  | [] => stop .endOfValue [] 0
  | '"' :: rest => variant known ('"' :: rest)
  | '\x7b' :: rest => caseEntry known rest
  | text => stop .expectedValue text 1

/-! ## Records -/

/-- Reads a record, either form after its opening bracket. -/
def record {α : Type} (expected : String) (ofList ofObject : Reader α) : Reader α := fun text =>
  match skipSpace text with
  | '[' :: rest => ofList rest
  | '\x7b' :: rest => ofObject rest
  | text => mismatch expected text

/-- Reads the colon and the value of a field that is kept in `slot`. -/
def field {α : Type} (name : String) (slot : Option α) (reader : Reader α) : Reader (Option α) :=
  fun text =>
    match slot with
    | some _ => misfit (.duplicateField name) (Container.giveUp '\x7d' text)
    | none => do
      let (a, rest) ← reader (← Container.colon text)
      return (some a, rest)

/-- Passes over the colon and the value of a field that is not known. -/
def unknownField (bound : Nat) (text : List Char) : Except Stop (List Char) := do
  skip bound (← Container.colon text)

/-- Reads the next field of a record written as a list, or nothing at the end of the list. -/
def element? {α : Type} (first : Bool) (reader : Reader α) : Reader (Option α) := fun text => do
  match ← Container.nextItem? first text with
  | none => return (none, text)
  | some text =>
    let (a, rest) ← reader text
    return (some a, rest)

/-- The field of a record written as a list, which has to be there: it is the one at `index`. -/
def element {α : Type} (index : Nat) (whole : String) (reader : Reader α) : Reader α :=
    fun text => do
  match ← element? (index == 0) reader text with
  | (some a, rest) => return (a, rest)
  | (none, rest) => misfit (.wrongLength index whole) (Container.giveUp ']' rest)

/-- The value of a field that an object must have, at the end of the object. -/
def required {α : Type} (name : String) (slot : Option α) (rest : List Char) : Except Stop α :=
  match slot with
  | some a => .ok a
  | none => misfit (.missingField name) rest

end MessageHarvest.Json
