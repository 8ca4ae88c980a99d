import MessageHarvest.Text.Quoted
import MessageHarvest.Json.Value

/-!
# Faults of JSON texts

A text can fail to be JSON (`SyntaxFault`), or be JSON of another shape than its reader expects
(`ShapeFault`). A fault found while the text is being read has a place in it; one found in a value
that was read before has none. `ReadError.message` is the wording of both.
-/

namespace MessageHarvest.Json

/-- Why a text is no JSON. -/
inductive SyntaxFault where
  | endOfList
  | endOfObject
  | endOfString
  | endOfValue
  | expectedColon
  | expectedListEnd
  | expectedObjectEnd
  | expectedWord
  | expectedValue
  | invalidEscape
  | invalidNumber
  | numberOutOfRange
  | controlCharacter
  | keyNotString
  | loneSurrogate
  | endOfEscape
  | trailingComma
  | trailingCharacters
  | tooDeep
deriving DecidableEq, Repr

def SyntaxFault.message : SyntaxFault → String
  | endOfList => "EOF while parsing a list"
  | endOfObject => "EOF while parsing an object"
  | endOfString => "EOF while parsing a string"
  | endOfValue => "EOF while parsing a value"
  | expectedColon => "expected \x60:\x60"
  | expectedListEnd => "expected \x60,\x60 or \x60]\x60"
  | expectedObjectEnd => "expected \x60,\x60 or \x60\x7d\x60"
  | expectedWord => "expected ident"
  | expectedValue => "expected value"
  | invalidEscape => "invalid escape"
  | invalidNumber => "invalid number"
  | numberOutOfRange => "number out of range"
  | controlCharacter => "control character (\\u0000-\\u001F) found while parsing a string"
  | keyNotString => "key must be a string"
  | loneSurrogate => "lone leading surrogate in hex escape"
  | endOfEscape => "unexpected end of hex escape"
  | trailingComma => "trailing comma"
  | trailingCharacters => "trailing characters"
  | tooDeep => "recursion limit exceeded"

/-- What was found where something else was expected. -/
inductive Found where
  | null
  | bool (value : Bool)
  | number (value : Number)
  | string (text : String)
  | list
  | object
deriving DecidableEq, Repr

def Found.describe : Found → String
  | null => "null"
  | bool value => s!"boolean \x60{value}\x60"
  | number (.float x) => s!"floating point \x60{String.ofList (floatChars x)}\x60"
  | number n => s!"integer \x60{String.ofList n.chars}\x60"
  | string text => s!"string {Text.quoted text}"
  | list => "sequence"
  | object => "map"

/-- What a value is, as far as a fault tells. -/
def Found.ofValue : Json → Found
  | .null => null
  | .bool value => bool value
  | .number value => number value
  | .string text => string text
  | .array _ => list
  | .object _ => object

/-- Why a value has not the shape that its reader expects. -/
inductive ShapeFault where
  | wrongType (found : Found) (expected : String)
  | wrongValue (found : Found) (expected : String)
  | wrongLength (length : Nat) (expected : String)
  | missingField (name : String)
  | duplicateField (name : String)
  | unknownVariant (name : String) (known : List String)
  | noVariant (type : String)
deriving DecidableEq, Repr

/-- A list of names to choose from: "a", "a or b", "one of a, b, c", each name in backquotes. -/
def choice (names : List String) : String :=
  match names.map fun name => s!"\x60{name}\x60" with
  | [] => "nothing"
  | [a] => a
  | [a, b] => s!"{a} or {b}"
  | quoted => "one of " ++ ", ".intercalate quoted

def ShapeFault.message : ShapeFault → String
  | wrongType found expected => s!"invalid type: {found.describe}, expected {expected}"
  | wrongValue found expected => s!"invalid value: {found.describe}, expected {expected}"
  | wrongLength length expected => s!"invalid length {length}, expected {expected}"
  | missingField name => s!"missing field \x60{name}\x60"
  | duplicateField name => s!"duplicate field \x60{name}\x60"
  | unknownVariant name known => s!"unknown variant \x60{name}\x60, expected {choice known}"
  | noVariant type => s!"data did not match any variant of untagged enum {type}"

inductive Fault where
  | text (fault : SyntaxFault)
  | shape (fault : ShapeFault)
deriving DecidableEq, Repr

def Fault.message : Fault → String
  | text fault => fault.message
  | shape fault => fault.message

/-! ## Places -/

/-- A line, counted from one, and the number of bytes of it that lie before the place. -/
structure Position where
  line : Nat
  column : Nat
deriving DecidableEq, Repr

/-- The position after the first `bytes` bytes of a text, from `line` and `column` on. -/
def Position.after : List Char → (bytes line column : Nat) → Position
  | [], _, line, column => ⟨line, column⟩
  | c :: cs, bytes, line, column =>
    if bytes = 0 then ⟨line, column⟩
    else if c = '\n' then after cs (bytes - 1) (line + 1) 0
    else after cs (bytes - c.utf8Size) line (column + min bytes c.utf8Size)

/-- The bytes of a text. -/
def byteCount (text : List Char) : Nat :=
  (text.map Char.utf8Size).foldr Nat.add 0

/-- A place in a text that is being read: `ahead` bytes into what is left of it, at most its end. -/
structure Place where
  rest : List Char
  ahead : Nat := 0
deriving DecidableEq, Repr

def Place.position (place : Place) (source : List Char) : Position :=
  let total := byteCount source
  Position.after source (min total (total - byteCount place.rest + place.ahead)) 1 0

/-- Where and why reading stopped. -/
structure Stop where
  fault : Fault
  place : Option Place := none
deriving DecidableEq, Repr

/-- A fault of a text, with its position where it has one. -/
structure ReadError where
  fault : Fault
  position : Option Position
deriving DecidableEq, Repr

namespace ReadError

def ofStop (source : List Char) (stop : Stop) : ReadError where
  fault := stop.fault
  position := stop.place.map (·.position source)

def message (error : ReadError) : String :=
  match error.position with
  | some p => s!"{error.fault.message} at line {p.line} column {p.column}"
  | none => error.fault.message

end ReadError

end MessageHarvest.Json
