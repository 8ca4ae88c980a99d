import MessageHarvest.Json.Container

/-!
# Reading JSON values

* `Json.value depth bound` reads a value of at most `depth` nested containers.
* `Json.skip bound` passes over a value of any depth. It looks at words, numbers and strings only as
  far as their ends must be found: numbers may be of any size, and surrogates need no partner.
* `Json.read` reads a whole text with a given reader.
-/

namespace MessageHarvest.Json

/-- The number of containers that may be nested in a text. -/
def maxDepth : Nat := 127

/-! ## Values -/

/-- Reads a word, a number or a string, of which the first character is known to come next; `none`
if a container or nothing of the kind comes next. -/
def scalar? (text : List Char) : Option (Except Stop (Json × List Char)) :=
  match text with
  | 'n' :: rest => some ((Json.null, ·) <$> Lexeme.word ['u', 'l', 'l'] rest)
  | 't' :: rest => some ((Json.bool true, ·) <$> Lexeme.word ['r', 'u', 'e'] rest)
  | 'f' :: rest => some ((Json.bool false, ·) <$> Lexeme.word ['a', 'l', 's', 'e'] rest)
  | '-' :: rest => some ((fun (n, rest) => (Json.number n, rest)) <$> Lexeme.number false rest)
  | '"' :: rest => some ((fun (s, rest) => (Json.string s, rest)) <$> Lexeme.string rest)
  | c :: _ =>
    if c.isDigit then some ((fun (n, rest) => (Json.number n, rest)) <$> Lexeme.number true text)
    else none
  | [] => none

/-- Reads a value whose items and entries are read by `inner`; without it a container is too deep.
-/
def valueWith (inner : Option (Reader Json)) (bound : Nat) : Reader Json := fun text =>
  let text := skipSpace text
  match scalar? text with
  | some result => result
  | none =>
    match text, inner with
    | [], _ => stop .endOfValue [] 0
    | '[' :: rest, some inner =>
      let item (done : List Json) (text : List Char) := do
        let (v, text) ← inner text
        return (v :: done, text)
      (fun (done, rest) => (Json.array done.reverse, rest)) <$>
        Container.foldItems item bound true [] rest
    | '\x7b' :: rest, some inner =>
      let entry (done : List (String × Json)) (key : String) (text : List Char) := do
        let text ← Container.colon text
        let (v, text) ← inner text
        return ((key, v) :: done, text)
      (fun (done, rest) => (Json.object done.reverse, rest)) <$>
        Container.foldEntries entry bound true [] rest
    | c :: rest, _ => stop (if c = '[' ∨ c = '\x7b' then .tooDeep else .expectedValue) (c :: rest) 1

/-- Reads a value of at most `depth` nested containers. -/
def value : (depth bound : Nat) → Reader Json
  | 0, bound => valueWith none bound
  | depth + 1, bound => valueWith (some (value depth bound)) bound

/-! ## Values that are passed over -/

namespace Skip

/-- Passes over an escape after its backslash. -/
def escape (text : List Char) : Except Stop (List Char) :=
  match text with
  | [] => stop .endOfString [] 0
  | c :: rest =>
    if c = 'u' then Prod.snd <$> Lexeme.hex rest
    else if (Lexeme.letterEscape? c).isSome then .ok rest
    else stop .invalidEscape (c :: rest) 1

theorem escape_length {text rest : List Char} (h : escape text = .ok rest) :
    rest.length < text.length := by
  unfold escape at h
  split at h
  · simp [stop] at h
  · split at h
    · rename_i tail _
      cases hx : Lexeme.hex tail with
      | error e => simp [hx, Functor.map, Except.map] at h
      | ok r =>
        obtain ⟨n, r⟩ := r
        simp only [hx, Functor.map, Except.map, Except.ok.injEq] at h
        have := Lexeme.hex_length hx
        simp only [List.length_cons, ← h]; omega
    · split at h
      · cases h; simp
      · simp [stop] at h

/-- Passes over a string after its opening quotation mark. -/
def string (text : List Char) : Except Stop (List Char) :=
  match text with
  | [] => stop .endOfString [] 0
  | '"' :: rest => .ok rest
  | '\\' :: rest =>
    match _h : escape rest with
    | .error e => .error e
    | .ok rest => string rest
  | c :: rest => if c.toNat < 0x20 then stop .controlCharacter (c :: rest) 0 else string rest
termination_by text.length
decreasing_by
  · have := escape_length _h; simp only [List.length_cons]; omega
  · simp

/-- Passes over an exponent after its letter. -/
def exponent (text : List Char) : Except Stop (List Char) :=
  let digits := match text with
    | '+' :: rest => rest
    | '-' :: rest => rest
    | text => text
  match digits with
  | [] => stop .invalidNumber [] 0
  | c :: rest =>
    if c.isDigit then .ok (Lexeme.skipDigits 0 rest).2 else stop .invalidNumber (c :: rest) 1

/-- Passes over a number from its first digit on. -/
def number (text : List Char) : Except Stop (List Char) :=
  match text with
  | [] => stop .invalidNumber [] 0
  | c :: rest =>
    if c = '0' ∧ Lexeme.startsWithDigit rest then stop .invalidNumber rest 1
    else if c.isDigit then
      let rest := if c = '0' then rest else (Lexeme.skipDigits 0 rest).2
      match rest with
      | '.' :: rest =>
        if Lexeme.startsWithDigit rest then
          match (Lexeme.skipDigits 0 rest).2 with
          | 'e' :: rest => exponent rest
          | 'E' :: rest => exponent rest
          | rest => .ok rest
        else stop .invalidNumber rest 1
      | 'e' :: rest => exponent rest
      | 'E' :: rest => exponent rest
      | rest => .ok rest
    else stop .invalidNumber (c :: rest) 1

/-- Passes over the items of a list up to and including its end. -/
def items (inner : List Char → Except Stop (List Char)) :
    (bound : Nat) → (first : Bool) → List Char → Except Stop (List Char)
  | 0, _, text => stop .endOfList text 0
  | bound + 1, first, text =>
    match skipSpace text with
    | [] => stop .endOfList [] 0
    | ']' :: rest => .ok rest
    | c :: rest =>
      if first then inner (c :: rest) >>= items inner bound false
      else if c = ',' then inner rest >>= items inner bound false
      else stop .expectedListEnd (c :: rest) 1

/-- Passes over a key, its colon and its value. -/
def entry (inner : List Char → Except Stop (List Char)) (text : List Char) :
    Except Stop (List Char) :=
  match skipSpace text with
  | [] => stop .endOfObject [] 0
  | '"' :: rest => do inner (← Container.colon (← string rest))
  | rest => stop .keyNotString rest 1

/-- Passes over the entries of an object up to and including its end. -/
def entries (inner : List Char → Except Stop (List Char)) :
    (bound : Nat) → (first : Bool) → List Char → Except Stop (List Char)
  | 0, _, text => stop .endOfObject text 0
  | bound + 1, first, text =>
    match skipSpace text with
    | [] => stop .endOfObject [] 0
    | '\x7d' :: rest => .ok rest
    | c :: rest =>
      if first then entry inner (c :: rest) >>= entries inner bound false
      else if c = ',' then entry inner rest >>= entries inner bound false
      else stop .expectedObjectEnd (c :: rest) 1

end Skip

/-- Passes over a value of at most `depth` nested containers. -/
def skipWithin : (depth bound : Nat) → List Char → Except Stop (List Char)
  | depth, bound, text =>
    match skipSpace text with
    | [] => stop .endOfValue [] 0
    | 'n' :: rest => Lexeme.word ['u', 'l', 'l'] rest
    | 't' :: rest => Lexeme.word ['r', 'u', 'e'] rest
    | 'f' :: rest => Lexeme.word ['a', 'l', 's', 'e'] rest
    | '-' :: rest => Skip.number rest
    | '"' :: rest => Skip.string rest
    | c :: rest =>
      if c.isDigit then Skip.number (c :: rest)
      else match depth with
        | 0 => stop .expectedValue (c :: rest) 1
        | depth + 1 =>
          if c = '[' then Skip.items (skipWithin depth bound) bound true rest
          else if c = '\x7b' then Skip.entries (skipWithin depth bound) bound true rest
          else stop .expectedValue (c :: rest) 1

/-- Passes over a value. A text of `bound` characters nests no deeper than that. -/
def skip (bound : Nat) : List Char → Except Stop (List Char) :=
  skipWithin bound bound

/-! ## Whole texts -/

/-- Reads a whole text with the reader that `reader` gives for the length of the text. -/
def read {α : Type} (reader : (bound : Nat) → Reader α) (source : String) : Except ReadError α :=
  let text := source.toList
  let result : Except Stop α := do
    let (a, rest) ← reader (text.length + 1) text
    match skipSpace rest with
    | [] => return a
    | rest => stop .trailingCharacters rest 1
  result.mapError (ReadError.ofStop text)

end MessageHarvest.Json
