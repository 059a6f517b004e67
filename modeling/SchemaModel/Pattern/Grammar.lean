import SchemaModel.Pattern.CharSet
import SchemaModel.Text.Width

/-!
Which texts are patterns. A pattern is read from left to right; the groups that are open form a
stack.
-/

namespace SchemaModel.Pattern

open Text (splitAt?)

/-- Letters outside ASCII, as ranges of code points of the common scripts. -/
def letterRanges : List (Nat × Nat) := [
  (0xAA, 0xAA), (0xB5, 0xB5), (0xBA, 0xBA), (0xC0, 0xD6), (0xD8, 0xF6), (0xF8, 0x2C1),
  (0x370, 0x374), (0x376, 0x377), (0x37B, 0x37D), (0x37F, 0x37F), (0x386, 0x386),
  (0x388, 0x3FF), (0x400, 0x481), (0x48A, 0x52F), (0x531, 0x556), (0x561, 0x587),
  (0x5D0, 0x5EA), (0x620, 0x657), (0x671, 0x6D3), (0x904, 0x939), (0xE01, 0xE3A),
  (0x10A0, 0x10C5), (0x10D0, 0x10FA), (0x1100, 0x11FF), (0x1E00, 0x1FBC), (0x3041, 0x3096),
  (0x30A1, 0x30FA), (0x3105, 0x312F), (0x3400, 0x4DBF), (0x4E00, 0x9FFF), (0xAC00, 0xD7A3),
  (0xFB00, 0xFB06), (0xFF21, 0xFF3A), (0xFF41, 0xFF5A), (0x20000, 0x2A6DF)]

/-- Digits and other numbers outside ASCII. -/
def numberRanges : List (Nat × Nat) := [
  (0xB2, 0xB3), (0xB9, 0xB9), (0xBC, 0xBE), (0x660, 0x669), (0x6F0, 0x6F9), (0x966, 0x96F),
  (0x2070, 0x2070), (0x2074, 0x2079), (0x2080, 0x2089), (0x2150, 0x2189), (0x2460, 0x249B),
  (0xFF10, 0xFF19)]

def startsGroupName (c : Char) : Bool := c = '_' || c.isAlpha || Text.isWithin letterRanges c

def continuesGroupName (c : Char) : Bool :=
  startsGroupName c || c.isDigit || c = '.' || c = '[' || c = ']' || Text.isWithin numberRanges c

def isGroupName : List Char → Bool
  | [] => false
  | c :: rest => startsGroupName c && rest.all continuesGroupName

/-- A branch of a group: what stands in it, and the depth of the last thing if it can be
repeated. -/
structure Branch where
  row : Row
  last : Option Nat
deriving DecidableEq, Repr

namespace Branch

def empty : Branch := ⟨.empty, none⟩

def push (branch : Branch) (depth : Nat) : Branch := ⟨branch.row.push depth, some depth⟩

/-- A change of mode, which cannot be repeated. -/
def pushMode (branch : Branch) : Branch := ⟨branch.row.push 0, none⟩

/-- Repeats the last thing. -/
def repeat? (branch : Branch) : Option Branch :=
  branch.last.map fun depth =>
    ⟨{ branch.row with deepest := max branch.row.deepest (depth + 1) }, some (depth + 1)⟩

end Branch

/-- A group that is being read: the mode that holds behind it, the depth of its finished
branches, and the branch at its end. -/
structure Group where
  outside : Mode
  finished : Option Nat
  branch : Branch
deriving DecidableEq, Repr

namespace Group

def start (outside : Mode) : Group := ⟨outside, none, .empty⟩

def depth (group : Group) : Nat :=
  match group.finished with
  | none => group.branch.row.depth
  | some finished => max finished group.branch.row.depth + 1

def nextBranch (group : Group) : Group :=
  { group with
    finished := some (max (group.finished.getD 0) group.branch.row.depth)
    branch := .empty }

end Group

/-- A pattern that is being read. -/
structure Reading where
  mode : Mode
  group : Group
  outer : List Group
  names : List (List Char)
  rest : List Char
deriving DecidableEq, Repr

namespace Reading

def start (cs : List Char) : Reading := ⟨.standard, .start .standard, [], [], cs⟩

def push (reading : Reading) (depth : Nat) (rest : List Char) : Reading :=
  { reading with
    group := { reading.group with branch := reading.group.branch.push depth }, rest }

/-- Opens a group whose content is read in a mode of its own. -/
def openGroup (reading : Reading) (mode : Mode) (rest : List Char) : Reading :=
  { reading with
    mode, group := .start reading.mode, outer := reading.group :: reading.outer, rest }

def closeGroup? (reading : Reading) (rest : List Char) : Option Reading :=
  match reading.outer with
  | [] => none
  | group :: outer =>
    some <| ({ reading with mode := reading.group.outside, group, outer }).push
      (reading.group.depth + 1) rest

def repeat? (reading : Reading) (rest : List Char) : Option Reading :=
  reading.group.branch.repeat?.map fun branch =>
    { reading with group := { reading.group with branch }, rest }

end Reading

/-- Flags up to a colon or a closing parenthesis. Each flag and the minus sign may occur once,
and the sign has a flag behind it. -/
def splitFlags? (cs : List Char) : Option (List Char × List Char) :=
  let flags := cs.takeWhile fun c => c ≠ ':' && c ≠ ')'
  let rest := cs.dropWhile fun c => c ≠ ':' && c ≠ ')'
  if !rest.isEmpty && flags.all (fun c => "imsUuRx-".toList.contains c) &&
      flags.all (fun c => flags.count c = 1) && flags.getLast? ≠ some '-' then
    some (flags, rest)
  else none

/-- What flags make of a mode: those in front of the minus sign are set, those behind it are
not. -/
def Mode.change (mode : Mode) (flags : List Char) : Mode :=
  let on := flags.takeWhile (· ≠ '-')
  { spaced := if flags.contains 'x' then on.contains 'x' else mode.spaced
    wide := if flags.contains 'u' then on.contains 'u' else mode.wide }

/-- A group with a name, behind the opening angle bracket. -/
def namedGroup? (reading : Reading) (cs : List Char) : Option Reading := do
  let (name, rest) ← splitAt? ['>'] cs
  if isGroupName name && !reading.names.contains name then
    some ({ reading with names := name :: reading.names }.openGroup reading.mode rest)
  else none

/-- A group behind its opening parenthesis. Flags without a group change the mode of the group
around them. -/
def group? (reading : Reading) (cs : List Char) : Option Reading :=
  match reading.mode.skip cs with
  | '?' :: 'P' :: '<' :: rest => namedGroup? reading rest
  | '?' :: '<' :: rest => namedGroup? reading rest
  | '?' :: rest => do
    let (flags, rest) ← splitFlags? rest
    let mode := reading.mode.change flags
    match rest with
    | ':' :: rest => some (reading.openGroup mode rest)
    | _ =>
      if flags.isEmpty then none
      else some { reading with
        mode
        group := { reading.group with branch := reading.group.branch.pushMode }
        rest := rest.drop 1 }
  | rest => some (reading.openGroup reading.mode rest)

/-- The largest number of repetitions that can be written. -/
def maxCount : Nat := Nat.pow 2 32 - 1

/-- A number with white space around it. -/
def count? (mode : Mode) (cs : List Char) : Option (Nat × List Char) :=
  let cs := Text.trimStart cs
  let digits := cs.takeWhile Char.isDigit
  let n := Numeral.natOfDigits digits
  if digits.isEmpty || maxCount < n then none
  else some (n, Text.trimStart (mode.skip (cs.drop digits.length)))

/-- The text behind the closing brace of a count. -/
def closeCount? (mode : Mode) : List Char → Option (List Char)
  | '\x7d' :: rest => some (mode.skip rest)
  | _ => none

/-- A number of repetitions, or a lower bound, or two bounds in order, behind the opening
brace. -/
def repetition? (mode : Mode) (cs : List Char) : Option (List Char) := do
  let (least, rest) ← count? mode (mode.skip cs)
  match rest with
  | ',' :: rest =>
    match mode.skip rest with
    | '\x7d' :: rest => some (mode.skip rest)
    | rest => do
      let (most, rest) ← count? mode rest
      let rest ← closeCount? mode rest
      if least ≤ most then some rest else none
  | rest => closeCount? mode rest

/-- A question mark behind a repetition asks for few. -/
def skipLazy : List Char → List Char
  | '?' :: rest => rest
  | cs => cs

/-- Reads the next thing of a pattern. -/
def step? (reading : Reading) : Option Reading :=
  match reading.rest with
  | [] => none
  | '(' :: rest => group? reading rest
  | ')' :: rest => reading.closeGroup? rest
  | '|' :: rest => some { reading with group := reading.group.nextBranch, rest }
  | '[' :: rest => (charSet? reading.mode rest).map fun (depth, rest) => reading.push depth rest
  | '?' :: rest => reading.repeat? (skipLazy rest)
  | '*' :: rest => reading.repeat? (skipLazy rest)
  | '+' :: rest => reading.repeat? (skipLazy rest)
  | '\x7b' :: rest => do
    let rest ← repetition? reading.mode rest
    reading.repeat? (skipLazy rest)
  | '\\' :: rest => (escape? reading.mode rest).map fun (_, rest) => reading.push 0 rest
  | '.' :: rest => if reading.mode.wide then some (reading.push 0 rest) else none
  | _ :: rest => some (reading.push 0 rest)

/-- Reads to the end of the text; every step takes a character. -/
def readAll? : (fuel : Nat) → Reading → Option Reading
  | 0, _ => none
  | fuel + 1, reading =>
    match reading.mode.skip reading.rest with
    | [] => some { reading with rest := [] }
    | rest => (step? { reading with rest }).bind (readAll? fuel)

/-- The levels of groups, repetitions, rows and sets that a pattern may have. -/
def maxDepth : Nat := 250

/-- Whether a text keeps to the grammar of patterns. -/
def isWellFormed (cs : List Char) : Bool :=
  match readAll? (cs.length + 1) (.start cs) with
  | some reading => reading.outer.isEmpty && reading.group.depth ≤ maxDepth
  | none => false

/-- The fault of a text that does not keep to the grammar. -/
def grammarError? (text : String) : Option String :=
  if isWellFormed text.toList then none else some s!"regex parse error: {text}"

end SchemaModel.Pattern
