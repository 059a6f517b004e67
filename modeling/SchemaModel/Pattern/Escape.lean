import SchemaModel.Json.Parser
import SchemaModel.Pattern.Property
import SchemaModel.Text.Blank

/-!
Escapes in a pattern: what may stand behind a backslash, and what it stands for.
-/

namespace SchemaModel.Pattern

open Text (splitAt?)

/-- How the text is read: with blanks and comments left out, and with characters beyond ASCII
in the sets. -/
structure Mode where
  spaced : Bool
  wide : Bool
deriving DecidableEq, Repr

namespace Mode

def standard : Mode := ⟨false, true⟩

end Mode

/-- The text behind blanks and comments; a comment runs from `#` to the end of the line. -/
def skipIgnored : (inComment : Bool) → List Char → List Char
  | _, [] => []
  | true, c :: rest => skipIgnored (c ≠ '\n') rest
  | false, c :: rest =>
    if Text.isBlank c then skipIgnored false rest
    else if c = '#' then skipIgnored true rest
    else c :: rest

def Mode.skip (mode : Mode) (cs : List Char) : List Char :=
  if mode.spaced then skipIgnored false cs else cs

/-- What an escape stands for: a character, a set of characters, or a position in the text. -/
inductive Escape where
  | char (c : Char)
  | set
  | position
deriving DecidableEq, Repr

/-- The character of a code point, none for a surrogate. -/
def scalar? (n : Nat) : Option Char :=
  if h : n.isValidChar then some ⟨n.toUInt32, by
    have : n < UInt32.size := by rcases h with h | h <;> simp [UInt32.size] <;> omega
    simpa [UInt32.isValidChar, Nat.toUInt32, Nat.mod_eq_of_lt this] using h⟩
  else none

/-- Hexadecimal digits of a fixed number. -/
def hexDigits? (mode : Mode) : (count value : Nat) → List Char → Option (Nat × List Char)
  | 0, value, cs => some (value, cs)
  | _ + 1, _, [] => none
  | count + 1, value, c :: rest => do
    let digit ← Json.hexValue? c
    hexDigits? mode count (16 * value + digit) (mode.skip rest)

/-- The text up to the closing brace, and what follows it. -/
def braced? (mode : Mode) (cs : List Char) : Option (List Char × List Char) :=
  splitAt? ['\x7d'] (mode.skip cs)

/-- Leaves out what the mode ignores between the characters of a name. -/
def squeeze (mode : Mode) (cs : List Char) : List Char :=
  if mode.spaced then cs.filter fun c => !Text.isBlank c else cs

/-- A character by its code point: `width` digits, or any number in braces. A byte beyond ASCII
is no character by itself. -/
def hexEscape? (mode : Mode) (width : Nat) (cs : List Char) : Option (Escape × List Char) :=
  match mode.skip cs with
  | '\x7b' :: rest => do
    let (digits, rest) ← braced? mode rest
    let digits := squeeze mode digits
    if digits.isEmpty then none
    let values ← digits.mapM Json.hexValue?
    let c ← scalar? (values.foldl (fun n digit => 16 * n + digit) 0)
    some (.char c, mode.skip rest)
  | cs => do
    let (value, rest) ← hexDigits? mode width 0 cs
    let c ← scalar? value
    if !mode.wide && width = 2 && 0x7F < value then none else some (.char c, rest)

/-- A set of characters by a property: one letter, or a name in braces. -/
def propertyEscape? (mode : Mode) (cs : List Char) : Option (Escape × List Char) := do
  let (name, rest) ← match mode.skip cs with
    | [] => none
    | '\x7b' :: rest => (braced? mode rest).map fun (name, rest) => (squeeze mode name, rest)
    | c :: rest => if c = '\\' then none else some ([c], mode.skip rest)
  if mode.wide && isProperty name then some (.set, rest) else none

def edgeNames : List String := ["start", "end", "start-half", "end-half"]

def isEdgeChar (c : Char) : Bool := c.isAlpha || c = '-'

/-- The edge of a word. A brace with a letter or a hyphen behind it names the kind of edge;
any other brace belongs to what follows. -/
def edgeEscape? (mode : Mode) (cs : List Char) : Option (Escape × List Char) :=
  match cs with
  | '\x7b' :: rest =>
    match mode.skip rest with
    | [] => none
    | c :: rest =>
      if isEdgeChar c then do
        let (name, rest) ← braced? mode (c :: rest)
        if edgeNames.contains (String.ofList (squeeze mode name)) then some (.position, rest)
        else none
      else some (.position, cs)
  | cs => some (.position, cs)

/-- Whether a character may be escaped to stand for itself: signs of ASCII other than the two
angle brackets. -/
def isEscapableSign (c : Char) : Bool :=
  c.toNat < 128 && !c.isAlphanum && c ≠ '<' && c ≠ '>'

/-- The escape behind a backslash. -/
def escape? (mode : Mode) : List Char → Option (Escape × List Char)
  | [] => none
  | c :: rest =>
    if isEscapableSign c then some (.char c, rest)
    else match c with
      | 'x' => hexEscape? mode 2 rest
      | 'u' => hexEscape? mode 4 rest
      | 'U' => hexEscape? mode 8 rest
      | 'p' => propertyEscape? mode rest
      | 'P' => propertyEscape? mode rest
      | 'd' => some (.set, rest)
      | 's' => some (.set, rest)
      | 'w' => some (.set, rest)
      | 'D' => if mode.wide then some (.set, rest) else none
      | 'S' => if mode.wide then some (.set, rest) else none
      | 'W' => if mode.wide then some (.set, rest) else none
      | 'a' => some (.char '\x07', rest)
      | 'f' => some (.char '\x0c', rest)
      | 't' => some (.char '\t', rest)
      | 'n' => some (.char '\n', rest)
      | 'r' => some (.char '\r', rest)
      | 'v' => some (.char '\x0b', rest)
      | 'b' => edgeEscape? mode rest
      | 'A' => some (.position, rest)
      | 'z' => some (.position, rest)
      | 'B' => some (.position, rest)
      | '<' => some (.position, rest)
      | '>' => some (.position, rest)
      | _ => none

end SchemaModel.Pattern
