/-!
# Styled text

A report is a sequence of spans, of which some have a style. With colours, a style is switched on
before its span and everything is switched off after it; without, only the texts are left.
-/

namespace MessageHarvest.Report

inductive Style where
  | bold
  | red
  | green
  | yellow
  | blue
  | boldRed
  | boldYellow
  | boldCyan
  | dimCyan
deriving DecidableEq, Repr

/-- The sequence that switches all styles off. -/
def off : List Char := "\x1b[0m".toList

namespace Style

/-- The numbers that stand for a style. -/
def numbers : Style → String
  | bold => "1"
  | red => "31"
  | green => "32"
  | yellow => "33"
  | blue => "34"
  | boldRed => "1;31"
  | boldYellow => "1;33"
  | boldCyan => "1;36"
  | dimCyan => "2;36"

/-- The sequence that switches a style on. -/
def on (style : Style) : List Char :=
  "\x1b[".toList ++ style.numbers.toList ++ ['m']

end Style

/-- A stretch of text, plain or in a style. -/
structure Span where
  text : String
  style : Option Style := none
deriving DecidableEq, Repr

/-- The text with the style switched on again wherever the text itself switches all styles off. -/
def keepOn (style : Style) : List Char → List Char
  | '\x1b' :: '[' :: '0' :: 'm' :: rest => off ++ style.on ++ keepOn style rest
  | c :: rest => c :: keepOn style rest
  | [] => []

def Span.render (colors : Bool) (span : Span) : List Char :=
  match span.style with
  | some style =>
    if colors then style.on ++ keepOn style span.text.toList ++ off else span.text.toList
  | none => span.text.toList

/-- The text of spans one after the other. -/
def render (colors : Bool) (spans : List Span) : String :=
  String.ofList (spans.flatMap (Span.render colors))

/-- Without colours only the texts of the spans are left. -/
theorem render_plain (spans : List Span) :
    render false spans = String.ofList (spans.flatMap (·.text.toList)) := by
  have h : Span.render false = (·.text.toList) := by
    funext span
    unfold Span.render
    split <;> simp
  simp [render, h]

end MessageHarvest.Report
