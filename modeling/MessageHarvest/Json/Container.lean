import MessageHarvest.Json.Lexeme

/-!
# Lists and objects of JSON

How the items of a list and the entries of an object follow one another, whatever the items are.
Both are read by folding: a step reads one item, or the value after one key, into a state. A step
may also be handed the key before its value is looked at, so that a reader can refuse a key at once.

The number of steps is bounded by `bound`, for which callers pass the length of the whole text: each
item takes at least one character, so the bound is never what ends a list.
-/

namespace MessageHarvest.Json

namespace Container

/-- The text from the next item of a list on, or nothing at the end of the list. -/
def nextItem? (first : Bool) (text : List Char) : Except Stop (Option (List Char)) :=
  match skipSpace text with
  | [] => stop .endOfList [] 0
  | ']' :: _ => .ok none
  | c :: rest =>
    if first then .ok (some (c :: rest))
    else if c = ',' then
      match skipSpace rest with
      | [] => stop .endOfValue [] 0
      | ']' :: rest => stop .trailingComma (']' :: rest) 1
      | rest => .ok (some rest)
    else stop .expectedListEnd (c :: rest) 1

/-- The text after the quotation mark of an object's next key, or nothing at the end of the object.
-/
def nextKey? (first : Bool) (text : List Char) : Except Stop (Option (List Char)) :=
  match skipSpace text with
  | [] => stop .endOfObject [] 0
  | '\x7d' :: _ => .ok none
  | c :: rest =>
    if first then
      if c = '"' then .ok (some rest) else stop .keyNotString (c :: rest) 1
    else if c = ',' then
      match skipSpace rest with
      | [] => stop .endOfValue [] 0
      | '"' :: rest => .ok (some rest)
      | '\x7d' :: rest => stop .trailingComma ('\x7d' :: rest) 1
      | rest => stop .keyNotString rest 1
    else stop .expectedObjectEnd (c :: rest) 1

/-- Reads the end of a list that is to have no further items. -/
def endList (text : List Char) : Except Stop (List Char) :=
  match skipSpace text with
  | [] => stop .endOfList [] 0
  | ']' :: rest => .ok rest
  | ',' :: rest =>
    match skipSpace rest with
    | ']' :: rest => stop .trailingComma (']' :: rest) 1
    | rest => stop .trailingCharacters rest 1
  | rest => stop .trailingCharacters rest 1

/-- The text from where a list or an object is given up: its end is passed over if it comes next. -/
def giveUp (close : Char) (text : List Char) : List Char :=
  match skipSpace text with
  | [] => []
  | c :: rest => if c = close then rest else c :: rest

/-- Reads the colon after a key. -/
def colon (text : List Char) : Except Stop (List Char) :=
  match skipSpace text with
  | [] => stop .endOfObject [] 0
  | c :: rest => if c = ':' then .ok rest else stop .expectedColon (c :: rest) 1

section

variable {σ : Type}

/-- Reads the items of a list up to and including its end, each with `step`. -/
def foldItems (step : σ → Reader σ) : (bound : Nat) → (first : Bool) → σ → Reader σ
  | 0, _, _, text => stop .endOfList text 0
  | bound + 1, first, state, text =>
    match nextItem? first text with
    | .error e => .error e
    | .ok none => .ok (state, giveUp ']' text)
    | .ok (some text) =>
      match step state text with
      | .error e => .error e
      | .ok (state, text) => foldItems step bound false state text

/-- Reads the entries of an object up to and including its end. After each key, `step` reads the
colon and the value. -/
def foldEntries (step : σ → String → Reader σ) : (bound : Nat) → (first : Bool) → σ → Reader σ
  | 0, _, _, text => stop .endOfObject text 0
  | bound + 1, first, state, text =>
    match nextKey? first text with
    | .error e => .error e
    | .ok none => .ok (state, giveUp '\x7d' text)
    | .ok (some text) =>
      match Lexeme.string text with
      | .error e => .error e
      | .ok (key, text) =>
        match step state key text with
        | .error e => .error e
        | .ok (state, text) => foldEntries step bound false state text

end

end Container

end MessageHarvest.Json
