import SchemaModel.Pattern.Escape

/-!
Sets of characters in brackets: characters, ranges, named classes, sets inside sets, and the
operations `&&`, `--` and `~~` between them. A set is read for the depth of its nesting.
-/

namespace SchemaModel.Pattern

open Text (splitAt?)

/-- Things that stand side by side: how many, and the greatest depth among them. -/
structure Row where
  count : Nat
  deepest : Nat
deriving DecidableEq, Repr

namespace Row

def empty : Row := ⟨0, 0⟩

def push (row : Row) (depth : Nat) : Row := ⟨row.count + 1, max row.deepest depth⟩

/-- A row of several things is a level of its own. -/
def depth (row : Row) : Nat := if row.count ≤ 1 then row.deepest else row.deepest + 1

end Row

/-- A set that is being read: what stands before the last operation, and what behind it. -/
structure OpenSet where
  negated : Bool
  left : Option Nat
  row : Row
deriving DecidableEq, Repr

namespace OpenSet

/-- The depth of all that has been read. -/
def content (set : OpenSet) : Nat :=
  match set.left with
  | none => set.row.depth
  | some left => max left set.row.depth + 1

def push (set : OpenSet) (depth : Nat) : OpenSet := { set with row := set.row.push depth }

def operate (set : OpenSet) : OpenSet := { set with left := some set.content, row := .empty }

end OpenSet

def classNames : List String :=
  ["alnum", "alpha", "ascii", "blank", "cntrl", "digit", "graph", "lower", "print", "punct",
    "space", "upper", "word", "xdigit"]

/-- A class by name, such as `[:alpha:]`, behind its opening bracket. -/
def namedClass? : List Char → Option (Bool × List Char)
  | ':' :: rest => do
    let (negated, rest) := match rest with
      | '^' :: rest => (true, rest)
      | rest => (false, rest)
    let (name, rest) ← splitAt? [':'] rest
    match rest with
    | ']' :: rest => if classNames.contains (String.ofList name) then some (negated, rest) else none
    | _ => none
  | _ => none

/-- The hyphens at the start of a set stand for themselves. -/
def leadingHyphens (mode : Mode) : (fuel : Nat) → Row → List Char → Row × List Char
  | 0, row, cs => (row, cs)
  | fuel + 1, row, cs =>
    match cs with
    | '-' :: rest => leadingHyphens mode fuel (row.push 0) (mode.skip rest)
    | cs => (row, cs)

/-- The start of a set behind its opening bracket. A closing bracket that comes first stands for
itself. -/
def openSet? (mode : Mode) (cs : List Char) : Option (OpenSet × List Char) :=
  let cs := mode.skip cs
  let (negated, cs) := match cs with
    | '^' :: rest => (true, mode.skip rest)
    | cs => (false, cs)
  let (row, cs) := leadingHyphens mode cs.length .empty cs
  let (row, cs) := match cs with
    | ']' :: rest => if row.count = 0 then (row.push 0, mode.skip rest) else (row, cs)
    | cs => (row, cs)
  if cs.isEmpty || (negated && !mode.wide) then none else some (⟨negated, none, row⟩, cs)

/-- A character or an escape in a set. -/
def setItem? (mode : Mode) : List Char → Option (Escape × List Char)
  | [] => none
  | '\\' :: rest => escape? mode rest
  | c :: rest => some (.char c, rest)

/-- Whether an item can stand in a set. Without wide sets only ASCII characters can. -/
def Escape.fitsSet (mode : Mode) : Escape → Bool
  | .char c => mode.wide || c.toNat < 128
  | .set => true
  | .position => false

/-- Whether a hyphen at the front of a text makes a range with what comes after it. -/
def makesRange (mode : Mode) : List Char → Bool
  | '-' :: rest =>
    match mode.skip rest with
    | ']' :: _ => false
    | '-' :: _ => false
    | _ => true
  | _ => false

/-- An item or a range. -/
def setRange? (mode : Mode) (cs : List Char) : Option (List Char) := do
  let (first, rest) ← setItem? mode cs
  if !first.fitsSet mode then none
  let rest := mode.skip rest
  if rest.isEmpty then none
  if makesRange mode rest then
    let (last, rest) ← setItem? mode (mode.skip (rest.drop 1))
    if !last.fitsSet mode then none
    match first, last with
    | .char first, .char last => if first ≤ last then some rest else none
    | _, _ => none
  else some rest

/-- Reads on in a set, `outer` being the sets around it. Gives the depth of the outermost set
and the text behind it. Every step takes a character. -/
def setRest? (mode : Mode) : (fuel : Nat) → (outer : List OpenSet) → OpenSet → List Char →
    Option (Nat × List Char)
  | 0, _, _, _ => none
  | fuel + 1, outer, set, cs =>
    match mode.skip cs with
    | [] => none
    | '[' :: rest =>
      match namedClass? rest with
      | some (negated, rest) =>
        if negated && !mode.wide then none else setRest? mode fuel outer (set.push 0) rest
      | none => do
        let (inner, rest) ← openSet? mode rest
        setRest? mode fuel (set :: outer) inner rest
    | ']' :: rest =>
      match outer with
      | [] => some (set.content + 1, rest)
      | parent :: outer => setRest? mode fuel outer (parent.push (set.content + 1)) rest
    | '&' :: '&' :: rest => setRest? mode fuel outer set.operate rest
    | '-' :: '-' :: rest => setRest? mode fuel outer set.operate rest
    | '~' :: '~' :: rest => setRest? mode fuel outer set.operate rest
    | cs => do
      let rest ← setRange? mode cs
      setRest? mode fuel outer (set.push 0) rest

/-- A set behind its opening bracket: its depth, and the text behind it. -/
def charSet? (mode : Mode) (cs : List Char) : Option (Nat × List Char) := do
  let (set, rest) ← openSet? mode cs
  setRest? mode (rest.length + 1) [] set rest

end SchemaModel.Pattern
