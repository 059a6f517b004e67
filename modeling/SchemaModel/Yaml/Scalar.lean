import SchemaModel.Json.Parser
import SchemaModel.Yaml.Cursor

/-!
The texts of scalars: plain, quoted with one or two marks, and in blocks. Lines of a text are
folded: one line break between two words is a space, and of several the first is left out.
-/

namespace SchemaModel.Yaml

/-- What stands between two words of a scalar: blanks on one line, or line breaks. -/
structure Gap where
  blanks : String
  firstBreak : String
  moreBreaks : String
  broken : Bool
deriving DecidableEq, Repr

namespace Gap

def none : Gap := ⟨"", "", "", false⟩

/-- A line break that was written with a backslash and counts for nothing. -/
def escapedBreak : Gap := ⟨"", "", "", true⟩

/-- Folded line breaks. -/
def fold (firstBreak moreBreaks : String) : String :=
  if firstBreak = "\n" then (if moreBreaks.isEmpty then " " else moreBreaks)
  else firstBreak ++ moreBreaks

def text (gap : Gap) : String :=
  if gap.broken then fold gap.firstBreak gap.moreBreaks else gap.blanks

end Gap

/-- Reads a gap. Behind a line break no tab may stand left of column `indent`. -/
def readGap? (indent : Int) : (fuel : Nat) → Gap → Cursor → Option (Gap × Cursor)
  | 0, _, _ => Option.none
  | fuel + 1, gap, cursor =>
    match cursor.head? with
    | Option.none => some (gap, cursor)
    | some c =>
      if isSpaceOrTab c then
        if gap.broken then
          if c = '\t' && (cursor.column : Int) < indent then Option.none
          else readGap? indent fuel gap cursor.skip
        else readGap? indent fuel { gap with blanks := gap.blanks.push c } cursor.skip
      else if isBreak c then
        let (text, cursor) := cursor.takeBreak
        if gap.broken then
          readGap? indent fuel { gap with moreBreaks := gap.moreBreaks ++ text } cursor
        else readGap? indent fuel ⟨"", text, "", true⟩ cursor
      else some (gap, cursor)

namespace Plain

/-- Signs that end a plain scalar inside brackets. -/
def isFlowSign (c : Char) : Bool := c = ',' || c = '[' || c = ']' || c = '\x7b' || c = '\x7d'

/-- A word of a plain scalar. Inside brackets a colon in front of a sign is refused. -/
def word? (flow : Bool) : (fuel : Nat) → (text : String) → Cursor → Option (String × Cursor)
  | 0, _, _ => none
  | fuel + 1, text, cursor =>
    match cursor.head? with
    | none => some (text, cursor)
    | some c =>
      if isGap c then some (text, cursor)
      else if flow && c = ':' && cursor.seesAt 1 (fun d => isFlowSign d || d = '?') then none
      else if (c = ':' && cursor.endsAt 1) || (flow && isFlowSign c) then some (text, cursor)
      else word? flow fuel (text.push c) cursor.skip

/-- Reads on in a plain scalar. Also tells whether a line break was left behind the text. -/
def rest? (flow : Bool) (indent : Int) : (fuel : Nat) → (text : String) → Gap → Cursor →
    Option (String × Bool × Cursor)
  | 0, _, _, _ => none
  | fuel + 1, text, gap, cursor =>
    if cursor.atDocumentMark || cursor.sees '#' then some (text, gap.broken, cursor)
    else do
      let (word, cursor) ← word? flow (cursor.rest.length + 1) "" cursor
      let (text, gap) := if word.isEmpty then (text, gap) else (text ++ gap.text ++ word, Gap.none)
      if cursor.seesAny isGap then
        let (gap, cursor) ← readGap? indent (cursor.rest.length + 1) gap cursor
        if !flow && (cursor.column : Int) < indent then some (text, gap.broken, cursor)
        else rest? flow indent fuel text gap cursor
      else some (text, gap.broken, cursor)

/-- A plain scalar in a block that is indented to column `indent`. -/
def read? (flow : Bool) (indent : Int) (cursor : Cursor) : Option (String × Bool × Cursor) :=
  rest? flow indent (cursor.rest.length + 1) "" Gap.none cursor

end Plain

namespace Quoted

/-- Escapes of one letter. -/
def escapes : List (Char × Char) := [
  ('0', '\x00'), ('a', '\x07'), ('b', '\x08'), ('t', '\t'), ('\t', '\t'), ('n', '\n'),
  ('v', '\x0b'), ('f', '\x0c'), ('r', '\r'), ('e', '\x1b'), (' ', ' '), ('"', '"'), ('/', '/'),
  ('\\', '\\'), ('N', '\u0085'), ('_', '\u00a0'), ('L', '\u2028'), ('P', '\u2029')]

/-- A character by its code point in a fixed number of digits. -/
def codePoint? (width : Nat) (cursor : Cursor) : Option (Char × Cursor) := do
  let digits := cursor.rest.take width
  if digits.length ≠ width then none
  let values ← digits.mapM Json.hexValue?
  let n := values.foldl (fun n digit => 16 * n + digit) 0
  if n.isValidChar then some (Char.ofNat n, cursor.skipMany width) else none

/-- The character of an escape, behind its backslash. -/
def escape? (cursor : Cursor) : Option (Char × Cursor) := do
  let c ← cursor.head?
  match c with
  | 'x' => codePoint? 2 cursor.skip
  | 'u' => codePoint? 4 cursor.skip
  | 'U' => codePoint? 8 cursor.skip
  | c => (escapes.lookup c).map fun d => (d, cursor.skip)

/-- A word in quotes, up to a gap or the closing mark. Also tells whether it ends in an escaped
line break. -/
def word? (single : Bool) : (fuel : Nat) → (text : String) → Cursor →
    Option (String × Bool × Cursor)
  | 0, _, _ => none
  | fuel + 1, text, cursor =>
    match cursor.rest with
    | [] => some (text, false, cursor)
    | c :: rest =>
      if isGap c then some (text, false, cursor)
      else if single then
        if c ≠ '\'' then word? single fuel (text.push c) cursor.skip
        else if rest.head? = some '\'' then word? single fuel (text.push c) (cursor.skipMany 2)
        else some (text, false, cursor)
      else if c = '"' then some (text, false, cursor)
      else if c ≠ '\\' then word? single fuel (text.push c) cursor.skip
      else if rest.head?.any isBreak then some (text, true, cursor.skip.takeBreak.2)
      else do
        let (d, cursor) ← escape? cursor.skip
        word? single fuel (text.push d) cursor

/-- Reads on in a quoted scalar, to behind its closing mark. -/
def rest? (single : Bool) : (fuel : Nat) → (text : String) → Cursor → Option (String × Cursor)
  | 0, _, _ => none
  | fuel + 1, text, cursor =>
    if cursor.atDocumentMark || cursor.atEnd then none
    else do
      let (text, escaped, cursor) ← word? single (cursor.rest.length + 1) text cursor
      if cursor.sees (if single then '\'' else '"') then some (text, cursor.skip)
      else
        let gap := if escaped then Gap.escapedBreak else Gap.none
        let (gap, cursor) ← readGap? 0 (cursor.rest.length + 1) gap cursor
        rest? single fuel (text ++ gap.text) cursor

/-- A quoted scalar, from its opening mark. -/
def read? (single : Bool) (cursor : Cursor) : Option (String × Cursor) :=
  rest? single (cursor.rest.length + 1) "" cursor.skip

end Quoted

namespace Block

/-- What becomes of the line breaks at the end of a block: all are left out, the first is kept,
or all are kept. -/
inductive Chomping where
  | strip
  | clip
  | keep
deriving DecidableEq, Repr

def chomping? : Char → Option Chomping
  | '-' => some .strip
  | '+' => some .keep
  | _ => none

/-- The header of a block behind its sign: the chomping and the indentation, in either order.
An indentation of zero is refused. -/
def header? (cursor : Cursor) : Option (Chomping × Option Nat × Cursor) :=
  let chomp := fun (cursor : Cursor) =>
    match cursor.head?.bind chomping? with
    | some chomping => (chomping, true, cursor.skip)
    | none => (Chomping.clip, false, cursor)
  let (chomping, found, cursor) := chomp cursor
  let digit := cursor.head?.filter Char.isDigit
  if digit = some '0' then none
  else
    let increment := digit.map fun c => c.toNat - '0'.toNat
    let cursor := if digit.isSome then cursor.skip else cursor
    let (chomping, _, cursor) :=
      if found || digit.isNone then (chomping, found, cursor) else chomp cursor
    some (chomping, increment, cursor)

/-- Empty lines in front of a line of a block, and the deepest column that was reached. The
indentation is not yet known when `indent` is none. Tabs do not indent. -/
def emptyLines? (indent : Option Nat) : (fuel : Nat) → (deepest : Nat) → (breaks : String) →
    Cursor → Option (Nat × String × Cursor)
  | 0, _, _, _ => none
  | fuel + 1, deepest, breaks, cursor =>
    let room := match indent with
      | none => cursor.rest.length
      | some indent => indent - cursor.column
    let cursor := cursor.skipMany ((cursor.rest.take room).takeWhile (· = ' ')).length
    let deepest := max deepest cursor.column
    if indent.all (cursor.column < ·) && cursor.sees '\t' then none
    else if cursor.seesAny isBreak then
      let (text, cursor) := cursor.takeBreak
      emptyLines? indent fuel deepest (breaks ++ text) cursor
    else some (deepest, breaks, cursor)

/-- A block that is being read: its text, the break behind its last line, the empty lines after
that, and whether the last line starts with a blank. -/
structure Lines where
  text : String
  lastBreak : String
  emptyLines : String
  blankStart : Bool
deriving DecidableEq, Repr

/-- Reads the lines of a block that is indented to column `indent`. Lines that start with a
blank are not folded. -/
def lines? (literal : Bool) (indent : Nat) : (fuel : Nat) → Lines → Cursor →
    Option (Lines × Cursor)
  | 0, _, _ => none
  | fuel + 1, lines, cursor =>
    if cursor.column ≠ indent || cursor.atEnd then some (lines, cursor)
    else do
      let blankStart := cursor.seesAny isSpaceOrTab
      let joint :=
        if !literal && lines.lastBreak = "\n" && !lines.blankStart && !blankStart then
          Gap.fold lines.lastBreak lines.emptyLines
        else lines.lastBreak ++ lines.emptyLines
      let (line, cursor) := cursor.span (!isBreak ·)
      let (lastBreak, cursor) := cursor.takeBreak
      let (_, emptyLines, cursor) ←
        emptyLines? (some indent) (cursor.rest.length + 1) 0 "" cursor
      lines? literal indent fuel ⟨lines.text ++ joint ++ line, lastBreak, emptyLines, blankStart⟩
        cursor

/-- A block scalar from its sign on. `parent` is the column of the block around it, if there is
one. -/
def read? (literal : Bool) (parent : Option Nat) (cursor : Cursor) :
    Option (String × Cursor) := do
  let (chomping, increment, cursor) ← header? cursor.skip
  let cursor ← cursor.skipLine?
  let given := increment.map (· + parent.getD 0)
  let (deepest, breaks, cursor) ← emptyLines? given (cursor.rest.length + 1) 0 "" cursor
  let least := match parent with
    | none => 1
    | some column => column + 1
  let indent := given.getD (max deepest least)
  let (lines, cursor) ←
    lines? literal indent (cursor.rest.length + 1) ⟨"", "", breaks, false⟩ cursor
  let text := match chomping with
    | .strip => lines.text
    | .clip => lines.text ++ lines.lastBreak
    | .keep => lines.text ++ lines.lastBreak ++ lines.emptyLines
  some (text, cursor)

end Block

end SchemaModel.Yaml
