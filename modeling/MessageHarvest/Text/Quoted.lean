import MessageHarvest.Text.Invisible

/-!
# Quoted text

`Text.quoted` writes a text between quotation marks on one line: quotation marks and backslashes get
a backslash, the common control characters have a letter, and every other invisible character is
written by its code point.
-/

namespace MessageHarvest.Text

/-- The escape that gives a code point in hexadecimal. -/
def codePointEscape (c : Char) : List Char :=
  ['\\', 'u', '\x7b'] ++ Nat.toDigits 16 c.toNat ++ ['\x7d']

/-- The written form of a character between quotation marks. -/
def escapeChar (c : Char) : List Char :=
  if c = '\x00' then ['\\', '0']
  else if c = '\t' then ['\\', 't']
  else if c = '\r' then ['\\', 'r']
  else if c = '\n' then ['\\', 'n']
  else if c = '\\' then ['\\', '\\']
  else if c = '"' then ['\\', '"']
  else if isInvisible c then codePointEscape c
  else [c]

def quotedChars (text : List Char) : List Char :=
  '"' :: text.flatMap escapeChar ++ ['"']

def quoted (text : String) : String :=
  String.ofList (quotedChars text.toList)

end MessageHarvest.Text
