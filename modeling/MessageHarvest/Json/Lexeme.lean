import MessageHarvest.Decimal.Scaling
import MessageHarvest.Json.Fault

/-!
# Words, numbers and strings of JSON

A reader takes the text that is left and gives what it read and the text that is then left, or the
place where it stopped. The readers of this file read one word, number or string each.

* `Lexeme.string` reads up to the closing quotation mark; escapes of surrogates must come in pairs.
* `Lexeme.number` keeps an integer while it fits in 64 bits. Digits beyond are not rounded into it:
  they only raise the exponent (`absorb`).
-/

namespace MessageHarvest.Json

/-- Reads a value from the front of a text. -/
abbrev Reader (α : Type) := List Char → Except Stop (α × List Char)

/-- Stops with a fault of the text, `ahead` bytes into `rest`. -/
def stop {α : Type} (fault : SyntaxFault) (rest : List Char) (ahead : Nat) : Except Stop α :=
  .error ⟨.text fault, some ⟨rest, ahead⟩⟩

/-- Stops with a fault of the shape at the beginning of `rest`. -/
def misfit {α : Type} (fault : ShapeFault) (rest : List Char) : Except Stop α :=
  .error ⟨.shape fault, some ⟨rest, 0⟩⟩

def isSpace (c : Char) : Bool :=
  c = ' ' || c = '\n' || c = '\t' || c = '\r'

/-- The text without the white space at its front. -/
def skipSpace (text : List Char) : List Char :=
  text.dropWhile isSpace

namespace Lexeme

/-- Reads the remaining letters of a word. -/
def word : List Char → List Char → Except Stop (List Char)
  | [], text => .ok text
  | _ :: _, [] => stop .endOfValue [] 0
  | expected :: more, c :: rest =>
    if c = expected then word more rest else stop .expectedWord (c :: rest) 1

/-! ## Numbers -/

/-- The bound of 64-bit integers. -/
def wordBound : Nat := Nat.pow 2 64

def digit? (c : Char) : Option Nat :=
  if c.isDigit then some (c.toNat - '0'.toNat) else none

def startsWithDigit (text : List Char) : Bool :=
  text.head?.any Char.isDigit

/-- Appends digits to an integer while it fits in 64 bits. Gives the integer, the number of digits
taken and the text from the first digit that was not. -/
def absorb (n taken : Nat) : List Char → Nat × Nat × List Char
  | [] => (n, taken, [])
  | c :: rest =>
    match digit? c with
    | some d =>
      if 10 * n + d < wordBound then absorb (10 * n + d) (taken + 1) rest else (n, taken, c :: rest)
    | none => (n, taken, c :: rest)

/-- Passes over digits and counts them. -/
def skipDigits (count : Nat) : List Char → Nat × List Char
  | [] => (count, [])
  | c :: rest => if c.isDigit then skipDigits (count + 1) rest else (count, c :: rest)

/-- The float `n · 10 ^ exponent` with its sign, or a fault if it is too large. -/
def float (positive : Bool) (n : Nat) (exponent : Int) (rest : List Char) :
    Except Stop (Number × List Char) :=
  match Decimal.scale? (UInt64.ofNat n).toFloat exponent with
  | some x => .ok (.float (if positive then x else -x), rest)
  | none => stop .numberOutOfRange rest 0

/-- The greatest exponent that is read digit by digit. -/
def exponentBound : Nat := Nat.pow 2 31

/-- Reads the digits of an exponent after the first, up to `exponentBound`. Beyond it the answer is
nothing, with the text after the digit that exceeded it. -/
def exponentDigits (e : Nat) : List Char → Option Nat × List Char
  | [] => (some e, [])
  | c :: rest =>
    match digit? c with
    | some d =>
      if 10 * e + d < exponentBound then exponentDigits (10 * e + d) rest else (none, rest)
    | none => (some e, c :: rest)

/-- Reads an exponent after its letter and gives the float. -/
def exponent (positive : Bool) (n : Nat) (base : Int) (text : List Char) :
    Except Stop (Number × List Char) :=
  let (raises, text) := match text with
    | '+' :: rest => (true, rest)
    | '-' :: rest => (false, rest)
    | text => (true, text)
  match text with
  | [] => stop .endOfValue [] 0
  | c :: rest =>
    match digit? c with
    | none => stop .invalidNumber (c :: rest) 1
    | some d =>
      match exponentDigits d rest with
      | (some e, rest) => float positive n (if raises then base + e else base - e) rest
      | (none, rest) =>
        if n ≠ 0 ∧ raises then stop .numberOutOfRange rest 0
        else .ok (.float (if positive then 0.0 else -0.0), (skipDigits 0 rest).2)

/-- Reads an exponent if one follows, and gives the float. -/
def exponent? (positive : Bool) (n : Nat) (base : Int) (text : List Char) :
    Except Stop (Number × List Char) :=
  match text with
  | 'e' :: rest => exponent positive n base rest
  | 'E' :: rest => exponent positive n base rest
  | text => float positive n base text

/-- Reads the digits after the point. -/
def fraction (positive : Bool) (n : Nat) (base : Int) (text : List Char) :
    Except Stop (Number × List Char) :=
  if startsWithDigit text then
    let (n, taken, rest) := absorb n 0 text
    exponent? positive n (base - taken) (skipDigits 0 rest).2
  else if text.isEmpty then stop .endOfValue text 0
  else stop .invalidNumber text 1

/-- An integer with its sign. What fits in no integer of 64 bits is a float, and so is minus zero.
-/
def integer (positive : Bool) (n : Nat) : Number :=
  if positive then .natural (UInt64.ofNat n)
  else if n = 0 ∨ Nat.pow 2 63 < n then .float (-(UInt64.ofNat n).toFloat)
  else .negative (Int64.ofInt (-n))

/-- Reads a number from its first digit on. -/
def number (positive : Bool) (text : List Char) : Except Stop (Number × List Char) :=
  match text with
  | [] => stop .endOfValue [] 0
  | c :: rest =>
    match digit? c with
    | none => stop .invalidNumber (c :: rest) 1
    | some d =>
      if d = 0 ∧ startsWithDigit rest then stop .invalidNumber rest 1
      else
        let (n, _, rest) := absorb d 0 rest
        let (dropped, rest) := skipDigits 0 rest
        match rest with
        | '.' :: rest => fraction positive n dropped rest
        | 'e' :: rest => exponent positive n dropped rest
        | 'E' :: rest => exponent positive n dropped rest
        | rest =>
          if dropped = 0 then .ok (integer positive n, rest) else float positive n dropped rest

/-! ## Strings -/

def hexDigit? (c : Char) : Option Nat :=
  if '0' ≤ c ∧ c ≤ '9' then some (c.toNat - '0'.toNat)
  else if 'a' ≤ c ∧ c ≤ 'f' then some (c.toNat - 'a'.toNat + 10)
  else if 'A' ≤ c ∧ c ≤ 'F' then some (c.toNat - 'A'.toNat + 10)
  else none

/-- The number that four hexadecimal digits stand for. -/
def hexValue? (a b c d : Char) : Option Nat := do
  return (((← hexDigit? a) * 16 + (← hexDigit? b)) * 16 + (← hexDigit? c)) * 16 + (← hexDigit? d)

/-- Reads four hexadecimal digits. A text of fewer than four bytes has come to its end. -/
def hex (text : List Char) : Except Stop (Nat × List Char) :=
  match text with
  | a :: b :: c :: d :: rest =>
    match hexValue? a b c d with
    | some n => .ok (n, rest)
    | none => stop .invalidEscape text 4
  | text => if byteCount text < 4 then stop .endOfString [] 0 else stop .invalidEscape text 4

def isHighSurrogate (n : Nat) : Bool := 0xD800 ≤ n && n < 0xDC00

def isLowSurrogate (n : Nat) : Bool := 0xDC00 ≤ n && n < 0xE000

/-- The character that a pair of surrogates stands for. -/
def pairedChar (high low : Nat) : Char :=
  Char.ofNat ((high - 0xD800) * 0x400 + (low - 0xDC00) + 0x10000)

/-- Reads the second half of a pair of surrogates, from its backslash on. -/
def lowSurrogate (high : Nat) (text : List Char) : Except Stop (Char × List Char) :=
  match text with
  | [] => stop .endOfString [] 0
  | '\\' :: [] => stop .endOfString [] 0
  | '\\' :: 'u' :: rest =>
    match hex rest with
    | .error e => .error e
    | .ok (low, rest) =>
      if isLowSurrogate low then .ok (pairedChar high low, rest)
      else stop .loneSurrogate rest 0
  | '\\' :: rest => stop .endOfEscape rest 1
  | text => stop .endOfEscape text 1

/-- The character that a backslash and one letter stand for. -/
def letterEscape? : Char → Option Char
  | '"' => some '"'
  | '\\' => some '\\'
  | '/' => some '/'
  | 'b' => some '\x08'
  | 'f' => some '\x0c'
  | 'n' => some '\n'
  | 'r' => some '\r'
  | 't' => some '\t'
  | _ => none

/-- Reads an escape after its backslash and the letter `u`. -/
def codeEscape (text : List Char) : Except Stop (Char × List Char) :=
  match hex text with
  | .error e => .error e
  | .ok (n, rest) =>
    if isLowSurrogate n then stop .loneSurrogate rest 0
    else if isHighSurrogate n then lowSurrogate n rest
    else .ok (Char.ofNat n, rest)

/-- Reads an escape after its backslash. -/
def escape (text : List Char) : Except Stop (Char × List Char) :=
  match text with
  | [] => stop .endOfString [] 0
  | c :: rest =>
    if c = 'u' then codeEscape rest
    else match letterEscape? c with
      | some e => .ok (e, rest)
      | none => stop .invalidEscape (c :: rest) 1

theorem hex_length {text rest : List Char} {n : Nat} (h : hex text = .ok (n, rest)) :
    rest.length < text.length := by
  unfold hex at h
  split at h
  · split at h
    · cases h; simp only [List.length_cons]; omega
    · simp [stop] at h
  · split at h <;> simp [stop] at h

theorem lowSurrogate_length {high : Nat} {text rest : List Char} {c : Char}
    (h : lowSurrogate high text = .ok (c, rest)) : rest.length < text.length := by
  unfold lowSurrogate at h
  split at h
  · simp [stop] at h
  · simp [stop] at h
  · split at h
    · simp at h
    · rename_i hx
      have := hex_length hx
      split at h
      · simp only [Except.ok.injEq, Prod.mk.injEq] at h
        obtain ⟨-, rfl⟩ := h
        simp only [List.length_cons]; omega
      · simp [stop] at h
  · simp [stop] at h
  · simp [stop] at h

theorem codeEscape_length {text rest : List Char} {c : Char} (h : codeEscape text = .ok (c, rest)) :
    rest.length < text.length := by
  unfold codeEscape at h
  split at h
  · simp at h
  · rename_i hx
    have := hex_length hx
    split at h
    · simp [stop] at h
    · split at h
      · have := lowSurrogate_length h; omega
      · cases h; omega

theorem escape_length {text rest : List Char} {c : Char} (h : escape text = .ok (c, rest)) :
    rest.length < text.length := by
  unfold escape at h
  split at h
  · simp [stop] at h
  · split at h
    · have := codeEscape_length h; simp only [List.length_cons]; omega
    · split at h
      · cases h; simp
      · simp [stop] at h

/-- Reads the characters of a string up to the closing quotation mark, after those in `done`, which
stand in reverse. -/
def stringChars (done : List Char) (text : List Char) : Except Stop (List Char × List Char) :=
  match text with
  | [] => stop .endOfString [] 0
  | '"' :: rest => .ok (done.reverse, rest)
  | '\\' :: rest =>
    match _h : escape rest with
    | .error e => .error e
    | .ok (c, rest) => stringChars (c :: done) rest
  | c :: rest =>
    if c.toNat < 0x20 then stop .controlCharacter rest 0 else stringChars (c :: done) rest
termination_by text.length
decreasing_by
  · have := escape_length _h; simp only [List.length_cons]; omega
  · simp

/-- Reads a string after its opening quotation mark. -/
def string (text : List Char) : Except Stop (String × List Char) :=
  match stringChars [] text with
  | .error e => .error e
  | .ok (chars, rest) => .ok (String.ofList chars, rest)

end Lexeme

end MessageHarvest.Json
