/-!
Changing the case of words that are separated by blanks, hyphens, underscores or by a capital
that follows a small letter. All texts here are ASCII.
-/

namespace SchemaModel.Text

def isSeparator (c : Char) : Bool := c = ' ' || c = '-' || c = '_'

/-- Joins words, each with a capital at its start. The character behind a separator begins a
word; within a word a character is made small unless the one before it is a small letter. -/
def pascalFrom (starts : Bool) (before : Char) : List Char → List Char
  | [] => []
  | c :: rest =>
    if starts then c.toUpper :: pascalFrom false c rest
    else if isSeparator c then pascalFrom true c rest
    else (if before.isLower then c else c.toLower) :: pascalFrom false c rest

def toPascal (cs : List Char) : List Char := pascalFrom true ' ' cs

/-- Joins words by underscores, all in capitals. -/
def constantFrom (before : Char) : List Char → List Char
  | [] => []
  | c :: rest =>
    if isSeparator c then '_' :: constantFrom c rest
    else if before.isLower && c.isUpper then '_' :: c :: constantFrom c rest
    else c.toUpper :: constantFrom c rest

def toConstant (cs : List Char) : List Char := constantFrom ' ' cs

end SchemaModel.Text
