/-!
Places in a YAML text, and the classes of characters that its grammar tells apart.
-/

namespace SchemaModel.Yaml

def isBreak (c : Char) : Bool :=
  c = '\n' || c = '\r' || c = '\u0085' || c = '\u2028' || c = '\u2029'

def isSpaceOrTab (c : Char) : Bool := c = ' ' || c = '\t'

def isGap (c : Char) : Bool := isSpaceOrTab c || isBreak c

/-- The characters of names: letters, digits, the underscore and the hyphen, of ASCII alone. -/
def isNameChar (c : Char) : Bool := c.isAlphanum || c = '_' || c = '-'

/-- The characters that a text may hold. -/
def isAllowed (c : Char) : Bool :=
  let n := c.toNat
  n = 0x09 || n = 0x0A || n = 0x0D || (0x20 ≤ n && n ≤ 0x7E) || n = 0x85 ||
  (0xA0 ≤ n && n ≤ 0xD7FF) || (0xE000 ≤ n && n ≤ 0xFFFD) || 0x10000 ≤ n

/-- A place in a text: what follows it, how many characters stand before it, its line, and its
column. -/
structure Cursor where
  rest : List Char
  index : Nat
  line : Nat
  column : Nat
deriving Repr

namespace Cursor

def start (cs : List Char) : Cursor := ⟨cs, 0, 0, 0⟩

def head? (cursor : Cursor) : Option Char := cursor.rest.head?

def atEnd (cursor : Cursor) : Bool := cursor.rest.isEmpty

/-- Whether the next character is `c`. -/
def sees (cursor : Cursor) (c : Char) : Bool := cursor.rest.head? = some c

/-- Whether the next character is in a class; at the end it is not. -/
def seesAny (cursor : Cursor) (test : Char → Bool) : Bool := cursor.rest.head?.any test

/-- Whether the character `n` places on is in a class. -/
def seesAt (cursor : Cursor) (n : Nat) (test : Char → Bool) : Bool :=
  (cursor.rest.drop n).head?.any test

/-- Whether a word could end `n` places on: there is a gap or the end of the text. -/
def endsAt (cursor : Cursor) (n : Nat) : Bool :=
  match cursor.rest.drop n with
  | [] => true
  | c :: _ => isGap c

/-- Whether the line ends here. -/
def endsLine (cursor : Cursor) : Bool :=
  match cursor.rest with
  | [] => true
  | c :: _ => isBreak c

def skip (cursor : Cursor) : Cursor :=
  { cursor with
    rest := cursor.rest.drop 1, index := cursor.index + 1, column := cursor.column + 1 }

def skipMany (cursor : Cursor) (n : Nat) : Cursor :=
  { cursor with
    rest := cursor.rest.drop n, index := cursor.index + n, column := cursor.column + n }

/-- Skips the characters of a class, none of which is a break. -/
def skipWhile (cursor : Cursor) (test : Char → Bool) : Cursor :=
  cursor.skipMany (cursor.rest.takeWhile test).length

/-- The characters of a class at this place, and the place behind them. -/
def span (cursor : Cursor) (test : Char → Bool) : String × Cursor :=
  let taken := cursor.rest.takeWhile test
  (String.ofList taken, cursor.skipMany taken.length)

/-- The line break at this place as it is read, and the start of the next line. The two
separators of Unicode are kept; every other break is read as a line feed. -/
def takeBreak (cursor : Cursor) : String × Cursor :=
  let next := fun (n : Nat) =>
    Cursor.mk (cursor.rest.drop n) (cursor.index + n) (cursor.line + 1) 0
  match cursor.rest with
  | '\r' :: '\n' :: _ => ("\n", next 2)
  | c :: _ => (if c = '\u2028' || c = '\u2029' then String.singleton c else "\n", next 1)
  | [] => ("", cursor)

/-- Skips a comment up to the end of its line. -/
def skipComment (cursor : Cursor) : Cursor :=
  if cursor.sees '#' then cursor.skipWhile (!isBreak ·) else cursor

/-- Skips what is left of a line when it holds nothing but blanks and a comment. -/
def skipLine? (cursor : Cursor) : Option Cursor :=
  let cursor := (cursor.skipWhile isSpaceOrTab).skipComment
  if !cursor.endsLine then none else some cursor.takeBreak.2

/-- Whether a line starts here with three dots or three hyphens that stand alone. -/
def atDocumentMark (cursor : Cursor) : Bool :=
  cursor.column = 0 && cursor.endsAt 3 &&
    (['-', '-', '-'].isPrefixOf cursor.rest || ['.', '.', '.'].isPrefixOf cursor.rest)

end Cursor

end SchemaModel.Yaml
