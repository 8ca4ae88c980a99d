/-!
# Glob patterns

A pattern stands for a set of texts: `?` for any character, `*` for any characters, a bracket for
one character of a class, and `**` as a whole component of a path for any components. Separators and
leading dots are characters like others: `*` and `?` stand for them too.

* `Pattern.parse` reads a pattern or says at which character it is wrong.
* `Pattern.matches` decides whether a text is matched. It tries the shortest stretch of each `*`
  first and gives up once a stretch leaves too little text for the rest, since a longer one leaves
  less.
-/

namespace MessageHarvest.Glob

def separator : Char := '/'

/-! ## The form of patterns -/

/-- One part of a character class: the characters from `low` to `high`. A single character is the
range of itself. -/
structure CharRange where
  low : Char
  high : Char
deriving DecidableEq, Repr

def CharRange.contains (range : CharRange) (c : Char) : Bool :=
  range.low ≤ c && c ≤ range.high

inductive Token where
  | char (c : Char)
  | anyChar
  | anySequence
  | anyComponents
  | within (ranges : List CharRange)
  | except (ranges : List CharRange)
deriving DecidableEq, Repr

structure Pattern where
  tokens : List Token := []
deriving DecidableEq, Repr

/-! ## Reading patterns -/

inductive PatternFault where
  | wildcards
  | recursiveWildcards
  | invalidRange
deriving DecidableEq, Repr

def PatternFault.message : PatternFault → String
  | wildcards => "wildcards are either regular \x60*\x60 or recursive \x60**\x60"
  | recursiveWildcards => "recursive wildcards must form a single path component"
  | invalidRange => "invalid range pattern"

/-- What is wrong with a pattern, and before which of its characters. -/
structure PatternError where
  position : Nat
  fault : PatternFault
deriving DecidableEq, Repr

def PatternError.message (error : PatternError) : String :=
  s!"Pattern syntax error near position {error.position}: {error.fault.message}"

namespace Pattern

/-- The parts of a class, from the characters between its brackets. -/
def classRanges : List Char → List CharRange
  | [] => []
  | low :: '-' :: high :: rest => ⟨low, high⟩ :: classRanges rest
  | c :: rest => ⟨c, c⟩ :: classRanges rest

/-- Splits a text at the first closing bracket. -/
def splitAtBracket? : List Char → Option (List Char × List Char)
  | [] => none
  | c :: rest =>
    if c = ']' then some ([], rest)
    else (splitAtBracket? rest).map fun (inside, rest) => (c :: inside, rest)

/-- Reads a class after its opening bracket: what it stands for, the number of characters it takes
without that bracket, and the text after it. The first character of a class is never its end. -/
def readClass? (text : List Char) : Option (Token × Nat × List Char) :=
  match text with
  | '!' :: first :: rest =>
    (splitAtBracket? rest).map fun (inside, rest) =>
      (.except (classRanges (first :: inside)), inside.length + 3, rest)
  | '!' :: [] => none
  | first :: rest =>
    (splitAtBracket? rest).map fun (inside, rest) =>
      (.within (classRanges (first :: inside)), inside.length + 2, rest)
  | [] => none

theorem splitAtBracket?_length {text inside rest : List Char}
    (h : splitAtBracket? text = some (inside, rest)) :
    rest.length + inside.length + 1 = text.length := by
  induction text generalizing inside with
  | nil => simp [splitAtBracket?] at h
  | cons c cs ih =>
    unfold splitAtBracket? at h
    split at h
    · simp only [Option.some.injEq, Prod.mk.injEq] at h
      obtain ⟨rfl, rfl⟩ := h
      simp
    · simp only [Option.map_eq_some_iff] at h
      obtain ⟨⟨i, r⟩, hr, he⟩ := h
      simp only [Prod.mk.injEq] at he
      obtain ⟨rfl, rfl⟩ := he
      have := ih hr
      simp only [List.length_cons]; omega

theorem readClass?_length {text rest : List Char} {token : Token} {taken : Nat}
    (h : readClass? text = some (token, taken, rest)) : rest.length + taken = text.length := by
  unfold readClass? at h
  split at h
  · simp only [Option.map_eq_some_iff] at h
    obtain ⟨⟨i, r⟩, hr, he⟩ := h
    simp only [Prod.mk.injEq] at he
    obtain ⟨-, rfl, rfl⟩ := he
    have := splitAtBracket?_length hr
    simp only [List.length_cons]; omega
  · simp at h
  · simp only [Option.map_eq_some_iff] at h
    obtain ⟨⟨i, r⟩, hr, he⟩ := h
    simp only [Prod.mk.injEq] at he
    obtain ⟨-, rfl, rfl⟩ := he
    have := splitAtBracket?_length hr
    simp only [List.length_cons]; omega
  · simp at h

/-- Appends `**`, unless the tokens before end in it: repeated components are one. The very first
token is not joined with the next. -/
def pushComponents (tokens : Array Token) : Array Token :=
  if 1 < tokens.size ∧ tokens.back? = some .anyComponents then tokens
  else tokens.push .anyComponents

/-- Reads the tokens of a pattern from `text` on, which begins at character `position`; `previous`
is the character before it. -/
def parseFrom (tokens : Array Token) (previous : Option Char) (position : Nat) (text : List Char) :
    Except PatternError (Array Token) :=
  match text with
  | [] => .ok tokens
  | '?' :: rest => parseFrom (tokens.push .anyChar) (some '?') (position + 1) rest
  | '*' :: '*' :: '*' :: _ => .error ⟨position + 2, .wildcards⟩
  | '*' :: '*' :: rest =>
    if previous.all (· = separator) then
      match rest with
      | [] => .ok (pushComponents tokens)
      | c :: rest =>
        if c = separator then parseFrom (pushComponents tokens) (some c) (position + 3) rest
        else .error ⟨position + 2, .recursiveWildcards⟩
    else .error ⟨position - 1, .recursiveWildcards⟩
  | '*' :: rest => parseFrom (tokens.push .anySequence) (some '*') (position + 1) rest
  | '[' :: rest =>
    match _h : readClass? rest with
    | some (token, taken, rest) =>
      parseFrom (tokens.push token) (some ']') (position + taken + 1) rest
    | none => .error ⟨position, .invalidRange⟩
  | c :: rest => parseFrom (tokens.push (.char c)) (some c) (position + 1) rest
termination_by text.length
decreasing_by
  · simp
  · simp only [List.length_cons]; omega
  · simp
  · have := readClass?_length _h; simp only [List.length_cons]; omega
  · simp

def parse (text : String) : Except PatternError Pattern := do
  return ⟨(← parseFrom #[] none 0 text.toList).toList⟩

/-! ## Matching -/

/-- How an attempt to match ends: with a match, without one, or for want of text. -/
inductive Outcome where
  | matched
  | unmatched
  | exhausted
deriving DecidableEq, Repr

/-- Whether one token stands for the character. -/
def matchesChar : Token → Char → Bool
  | .char c, d => c = d
  | .anyChar, _ => true
  | .within ranges, d => ranges.any (·.contains d)
  | .except ranges, d => !ranges.any (·.contains d)
  | .anySequence, _ => false
  | .anyComponents, _ => false

/-- Tries the rest of a pattern after ever longer stretches of the text. `only` says after which
characters a stretch may end; it may always end with the text. -/
def afterStretch (rest : List Char → Outcome) (only : Char → Bool) : List Char → Outcome
  | [] => rest []
  | c :: text =>
    if only c then
      match rest text with
      | .unmatched => afterStretch rest only text
      | outcome => outcome
    else afterStretch rest only text

/-- Matches the tokens against the text. A stretch may be empty wherever it begins. -/
def matchTokens : List Token → List Char → Outcome
  | [], [] => .matched
  | [], _ :: _ => .unmatched
  | .anySequence :: tokens, text =>
    match matchTokens tokens text with
    | .unmatched => afterStretch (matchTokens tokens) (fun _ => true) text
    | outcome => outcome
  | .anyComponents :: tokens, text =>
    match matchTokens tokens text with
    | .unmatched => afterStretch (matchTokens tokens) (· = separator) text
    | outcome => outcome
  | _ :: _, [] => .exhausted
  | token :: tokens, c :: text =>
    if matchesChar token c then matchTokens tokens text else .unmatched

def «matches» (pattern : Pattern) (text : List Char) : Bool :=
  matchTokens pattern.tokens text = .matched

/-- Whether the pattern has a component that stands for any components. -/
def isRecursive (pattern : Pattern) : Bool :=
  pattern.tokens.contains .anyComponents

/-- The text that a pattern without wildcards and classes stands for. -/
def literal? (pattern : Pattern) : Option (List Char) :=
  pattern.tokens.mapM fun
    | .char c => some c
    | _ => none

end Pattern

/-- Whether a text has wildcards. A text without them is meant literally, brackets included. -/
def hasWildcard (text : String) : Bool :=
  text.toList.any fun c => c = '*' || c = '?'

end MessageHarvest.Glob
