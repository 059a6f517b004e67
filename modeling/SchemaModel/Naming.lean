import SchemaModel.Libraries

/-!
Names made from the texts of a document: segments of type names, constants of enums, and names
that no other schema has.

`sanitize` reduces a text to its runs of ASCII letters and digits, joined by underscores. All
other names are built from such texts.
-/

namespace SchemaModel.Naming

variable [Libraries]

/-- The maximal runs of letters and digits; `current` is the run being read, reversed. -/
def runsFrom (current : List Char) : List Char → List (List Char)
  | [] => if current.isEmpty then [] else [current.reverse]
  | c :: rest =>
    if c.isAlphanum then runsFrom (c :: current) rest
    else if current.isEmpty then runsFrom [] rest
    else current.reverse :: runsFrom [] rest

def runs (cs : List Char) : List (List Char) := runsFrom [] cs

def joinRuns (words : List (List Char)) : List Char := ['_'].intercalate words

/-- The letters and digits of a text, with one underscore wherever something else stood between
them. -/
def sanitizeChars (cs : List Char) : List Char := joinRuns (runs (Libraries.ascii cs))

def sanitize (text : String) : String := String.ofList (sanitizeChars text.toList)

/-- Mixed case without underscores, in which the words are already marked by capitals. -/
def isMixedCase (cs : List Char) : Bool :=
  cs.any Char.isUpper && cs.any Char.isLower && !cs.contains '_'

def capitalize : List Char → List Char
  | [] => []
  | c :: rest => c.toUpper :: rest

/-- A sanitized text in mixed case. -/
def segmentOf (cleaned : List Char) : String :=
  if cleaned.isEmpty then "Property"
  else if isMixedCase cleaned then String.ofList (capitalize cleaned)
  else String.ofList (Libraries.pascal cleaned)

/-- The part that a property key adds to the name of its owner. -/
def typeSegment (key : String) : String := segmentOf (sanitizeChars key.toList)

/-- The name of a schema that stands inside another one, under a property key. -/
def inlineName (owner key : String) : String := owner ++ typeSegment key

def isConstantChar (c : Char) : Bool := c.isUpper || c.isDigit || c = '_'

def startsWithDigit : List Char → Bool
  | c :: _ => c.isDigit
  | [] => false

/-- An underscore in front of a digit. -/
def guardDigit (cs : List Char) : List Char := if startsWithDigit cs then '_' :: cs else cs

/-- A sanitized text in capitals. -/
def constantOf (cleaned : List Char) : String :=
  if cleaned.isEmpty then "EMPTY"
  else
    String.ofList (guardDigit
      (if cleaned.all isConstantChar then cleaned else Libraries.constant cleaned))

/-- The constant that stands for an enum value. -/
def enumConstant (value : String) : String := constantOf (sanitizeChars value.toList)

def numbered (base : String) (n : Nat) : String := base ++ toString n

def candidates (base : String) (count : Nat) : List String :=
  (List.range count).map fun n => numbered base (n + 2)

/-- The base name if it is free, else the first of `base2`, `base3`, … that is. Of one more
candidate than there are used names, one is free. -/
def fresh (base : String) (used : List String) : String :=
  if used.contains base then
    ((candidates base (used.length + 1)).find? fun name => !used.contains name).getD base
  else base

end SchemaModel.Naming
