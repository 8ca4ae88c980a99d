/-!
# Messages

A message is a text to be put into other languages, with the line of the call that marks it.
Template calls give text and line only; the other fields are there for catalogues that carry more.
-/

namespace MessageHarvest

/-- A text to be put into other languages and where it was found. -/
structure Message where
  text : String
  plural : Option String := none
  domain : String
  notes : Option String := none
  context : Option String := none
  line : UInt64
deriving DecidableEq, Repr

namespace Message

/-- The domain of a message that names none. -/
def defaultDomain : String := "messages"

/-- The message of a call on `line` whose first argument is `text`. -/
def plain (text : String) (line : UInt64) : Message where
  text
  domain := defaultDomain
  line

end Message

end MessageHarvest
