import SchemaModel.Libraries
import SchemaModel.Text.Split

/-!
Which patterns are kept. Patterns that refer back to a group or look around a position are taken as
they are; any other has to be a regular expression.
-/

namespace SchemaModel.Pattern

/-- Whether a backslash has a digit from 1 to 9 behind it. -/
def hasBackReference : List Char → Bool
  | '\\' :: c :: rest => ('1' ≤ c && c ≤ '9') || hasBackReference (c :: rest)
  | _ :: rest => hasBackReference rest
  | [] => false

def lookAroundMarks : List String := ["(?=", "(?!", "(?<=", "(?<!"]

/-- Whether a text looks ahead of or behind a position. -/
def hasLookAround (cs : List Char) : Bool :=
  lookAroundMarks.any fun mark => Text.hasPart mark.toList cs

/-- Why a pattern cannot be kept. -/
def error? [Libraries] (text : String) : Option String :=
  if hasBackReference text.toList || hasLookAround text.toList then none
  else Libraries.patternError? text

end SchemaModel.Pattern
