import MessageHarvest.Text.Quoted

/-!
# Text that may not be text

Names of files, arguments and the contents of files are bytes, which mostly encode text. A `RawText`
keeps what they encode, and the bytes that encode nothing where they stand.

* `RawText.text?` is the text, if there are no stray bytes; `RawText.lossy` puts a replacement
  character in the place of each stray run. Of a text both give the text itself.
* `RawText.decode` reads UTF-8. Bytes are stray in the longest runs that some encoding begins with.
-/

namespace MessageHarvest

/-- A character, or a run of bytes that begins like the encoding of one but is none. -/
inductive Glyph where
  | char (c : Char)
  | stray (bytes : List UInt8)
deriving DecidableEq, Repr

abbrev RawText := List Glyph

namespace Glyph

def char? : Glyph → Option Char
  | char c => some c
  | stray _ => none

/-- The character that is shown for a glyph. -/
def shown : Glyph → Char
  | char c => c
  | stray _ => '\uFFFD'

/-- The number of bytes that encode a glyph. -/
def size : Glyph → Nat
  | char c => c.utf8Size
  | stray bytes => bytes.length

end Glyph

namespace RawText

def ofString (text : String) : RawText :=
  text.toList.map .char

/-- The text, if there are no stray bytes in it. -/
def text? (raw : RawText) : Option String :=
  String.ofList <$> raw.mapM Glyph.char?

/-- The text with a replacement character for each run of stray bytes. -/
def lossy (raw : RawText) : String :=
  String.ofList (raw.map Glyph.shown)

theorem text?_ofString (text : String) : (ofString text).text? = some text := by
  have h (cs : List Char) : (cs.map Glyph.char).mapM Glyph.char? = some cs := by
    induction cs with
    | nil => rfl
    | cons c cs ih => simp [List.mapM_cons, Glyph.char?, ih]
  simp [text?, ofString, h]

theorem lossy_ofString (text : String) : (ofString text).lossy = text := by
  have h (cs : List Char) : (cs.map Glyph.char).map Glyph.shown = cs := by
    induction cs with
    | nil => rfl
    | cons c cs ih => simpa [Glyph.shown] using ih
  simp only [lossy, ofString, h, String.ofList_toList]

/-- The number of bytes that encode a text. -/
def byteCount (raw : RawText) : Nat :=
  (raw.map Glyph.size).foldr Nat.add 0

/-! ## Quoting -/

/-- The escape that gives a byte in hexadecimal. -/
def byteEscape (byte : UInt8) : List Char :=
  let digit (n : Nat) := (Nat.digitChar n).toUpper
  ['\\', 'x', digit (byte.toNat / 16), digit (byte.toNat % 16)]

/-- The written form of a glyph between quotation marks. -/
def quotedGlyph : Glyph → List Char
  | .char c => Text.escapeChar c
  | .stray bytes => bytes.flatMap byteEscape

/-- The text between quotation marks, on one line. -/
def quoted (raw : RawText) : String :=
  String.ofList ('"' :: raw.flatMap quotedGlyph ++ ['"'])

/-! ## Decoding -/

/-- What may follow a first byte: for each further byte of the encoding its least and greatest
value. Nothing if no encoding begins so. -/
def followers? (lead : UInt8) : Option (List (UInt8 × UInt8)) :=
  let any : UInt8 × UInt8 := (0x80, 0xBF)
  if lead < 0x80 then some []
  else if lead < 0xC2 then none
  else if lead < 0xE0 then some [any]
  else if lead = 0xE0 then some [(0xA0, 0xBF), any]
  else if lead = 0xED then some [(0x80, 0x9F), any]
  else if lead < 0xF0 then some [any, any]
  else if lead = 0xF0 then some [(0x90, 0xBF), any, any]
  else if lead < 0xF4 then some [any, any, any]
  else if lead = 0xF4 then some [(0x80, 0x8F), any, any]
  else none

/-- The bytes that lie in the given ranges, up to the first that does not. -/
def following : List (UInt8 × UInt8) → List UInt8 → List UInt8
  | (low, high) :: ranges, b :: bytes =>
    if low ≤ b ∧ b ≤ high then b :: following ranges bytes else []
  | _, _ => []

/-- The character that a complete encoding stands for. -/
def combine (lead : UInt8) (more : List UInt8) : Char :=
  let first := match more.length with
    | 0 => lead.toNat
    | 1 => lead.toNat % 0x20
    | 2 => lead.toNat % 0x10
    | _ => lead.toNat % 0x08
  Char.ofNat (more.foldl (fun n b => n * 0x40 + b.toNat % 0x40) first)

/-- Reads bytes as UTF-8. -/
def decode : List UInt8 → RawText
  | [] => []
  | lead :: bytes =>
    match followers? lead with
    | none => .stray [lead] :: decode bytes
    | some ranges =>
      let more := following ranges bytes
      let glyph := if more.length = ranges.length then .char (combine lead more)
        else .stray (lead :: more)
      glyph :: decode (bytes.drop more.length)
termination_by bytes => bytes.length
decreasing_by
  · simp
  · simp only [List.length_drop, List.length_cons]; omega

end RawText

end MessageHarvest
