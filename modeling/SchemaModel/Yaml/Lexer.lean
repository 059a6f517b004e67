import SchemaModel.Yaml.Property
import SchemaModel.Yaml.Scalar

/-!
The tokens of a YAML text. Two things need memory: the columns of the blocks that are open, and
the places where a key may have begun, since a key on one line is known as a key only by the
colon behind it. Its token and the start of its mapping are then put in front of it.
-/

namespace SchemaModel.Yaml

/-- A place where a key on one line may have begun: the number of tokens before it, and whether
there can be nothing else but a key. -/
structure KeyStart where
  required : Bool
  position : Nat
  index : Nat
  line : Nat
  column : Nat
deriving DecidableEq, Repr

/-- A text that is cut into tokens. The tokens found are kept newest first, `columns` holds the
blocks that are open, innermost first, and `outerKeys` the key starts of the brackets around the
innermost ones. -/
structure Lexer where
  cursor : Cursor
  tokens : List Token
  count : Nat
  columns : List Nat
  keyAllowed : Bool
  keyStart : Option KeyStart
  outerKeys : List (Option KeyStart)
deriving Repr

namespace Lexer

def start (cs : List Char) : Lexer := ⟨.start cs, [], 0, [], true, none, []⟩

def inFlow (lexer : Lexer) : Bool := !lexer.outerKeys.isEmpty

/-- The column of the innermost block, and -1 if there is none. -/
def indent (lexer : Lexer) : Int :=
  match lexer.columns with
  | [] => -1
  | column :: _ => column

def emit (lexer : Lexer) (token : Token) : Lexer :=
  { lexer with tokens := token :: lexer.tokens, count := lexer.count + 1 }

/-- Puts a token behind the first `position` ones. -/
def emitAt (lexer : Lexer) (position : Nat) (token : Token) : Lexer :=
  let newer := lexer.count - position
  { lexer with
    tokens := lexer.tokens.take newer ++ token :: lexer.tokens.drop newer
    count := lexer.count + 1 }

def skip (lexer : Lexer) (n : Nat) : Lexer := { lexer with cursor := lexer.cursor.skipMany n }

/-- Opens a block at a column, unless one is open there or further right. -/
def openBlock (lexer : Lexer) (column position : Nat) (token : Token) : Lexer :=
  if lexer.inFlow || (column : Int) ≤ lexer.indent then lexer
  else { lexer with columns := column :: lexer.columns }.emitAt position token

/-- Ends the blocks right of a column. -/
def closeBlocks (lexer : Lexer) (column : Int) : Lexer :=
  let ended := (lexer.columns.takeWhile fun (inner : Nat) => column < inner).length
  if lexer.inFlow || ended = 0 then lexer
  else
    { lexer with
      columns := lexer.columns.drop ended
      tokens := List.replicate ended .blockEnd ++ lexer.tokens
      count := lexer.count + ended }

/-- Gives up the key that may have begun; it is a fault if there had to be one. -/
def dropKey? (lexer : Lexer) : Option Lexer :=
  match lexer.keyStart with
  | some start => if start.required then none else some { lexer with keyStart := none }
  | none => some lexer

/-- Notes that a key may begin here. -/
def noteKey? (lexer : Lexer) : Option Lexer :=
  if lexer.keyAllowed then do
    let required := !lexer.inFlow && lexer.indent = lexer.cursor.column
    let lexer ← lexer.dropKey?
    let cursor := lexer.cursor
    let start := KeyStart.mk required lexer.count cursor.index cursor.line cursor.column
    some { lexer with keyStart := some start }
  else some lexer

def allowKey (lexer : Lexer) (allowed : Bool) : Lexer := { lexer with keyAllowed := allowed }

/-- The characters that a key on one line may span. -/
def maxKeyLength : Nat := 1024

def isStale (cursor : Cursor) (start : KeyStart) : Bool :=
  start.line < cursor.line || start.index + maxKeyLength < cursor.index

/-- Forgets a key start that is too far back; it is a fault if there had to be a key. -/
def refresh? (cursor : Cursor) : Option KeyStart → Option (Option KeyStart)
  | none => some none
  | some start =>
    if !isStale cursor start then some (some start)
    else if start.required then none
    else some none

def refreshKeys? (lexer : Lexer) : Option Lexer := do
  let keyStart ← refresh? lexer.cursor lexer.keyStart
  let outerKeys ← lexer.outerKeys.mapM (refresh? lexer.cursor)
  some { lexer with keyStart, outerKeys }

/-- Goes on to the next token: past blanks, comments and line breaks. Tabs count as blanks where
no key can begin. A new line may begin a key. -/
def skipGap (lexer : Lexer) : (fuel : Nat) → Lexer
  | 0 => lexer
  | fuel + 1 =>
    let cursor := lexer.cursor
    let cursor := if cursor.index = 0 && cursor.sees '\uFEFF' then cursor.skip else cursor
    let tabs := lexer.inFlow || !lexer.keyAllowed
    let cursor := (cursor.skipWhile fun c => c = ' ' || (tabs && c = '\t')).skipComment
    if cursor.seesAny isBreak then
      skipGap { lexer with
        cursor := cursor.takeBreak.2, keyAllowed := lexer.keyAllowed || !lexer.inFlow } fuel
    else { lexer with cursor }

/-- Starts afresh at the left margin, as the marks between documents do. -/
def resetBlocks? (lexer : Lexer) : Option Lexer := do
  let lexer ← (lexer.closeBlocks (-1)).dropKey?
  some (lexer.allowKey false)

def finish? (lexer : Lexer) : Option Lexer := (lexer.resetBlocks?).map (·.emit .textEnd)

def directive? (lexer : Lexer) : Option Lexer := do
  let lexer ← lexer.resetBlocks?
  let (token, cursor) ← Directive.read? lexer.cursor
  some ({ lexer with cursor }.emit token)

def documentMark? (lexer : Lexer) : Option Lexer := do
  let token := if lexer.cursor.sees '-' then .documentStart else Token.documentEnd
  let lexer ← lexer.resetBlocks?
  some ((lexer.skip 3).emit token)

def openFlow? (lexer : Lexer) (token : Token) : Option Lexer := do
  let lexer ← lexer.noteKey?
  let lexer := { lexer with
    outerKeys := lexer.keyStart :: lexer.outerKeys, keyStart := none, keyAllowed := true }
  some ((lexer.skip 1).emit token)

def closeFlow? (lexer : Lexer) (token : Token) : Option Lexer := do
  let lexer ← lexer.dropKey?
  let lexer := match lexer.outerKeys with
    | keyStart :: outerKeys => { lexer with keyStart, outerKeys }
    | [] => lexer
  some (((lexer.allowKey false).skip 1).emit token)

def comma? (lexer : Lexer) : Option Lexer := do
  let lexer ← lexer.dropKey?
  some (((lexer.allowKey true).skip 1).emit .flowEntry)

/-- Opens the block of an entry at this place. Outside brackets an entry needs a place where a
key can begin. -/
def openAt? (lexer : Lexer) (token : Token) : Option Lexer :=
  if !lexer.inFlow && !lexer.keyAllowed then none
  else some (lexer.openBlock lexer.cursor.column lexer.count token)

def hyphen? (lexer : Lexer) : Option Lexer := do
  let lexer ← lexer.openAt? .blockSequenceStart
  let lexer ← lexer.dropKey?
  some (((lexer.allowKey true).skip 1).emit .blockEntry)

def key? (lexer : Lexer) : Option Lexer := do
  let lexer ← lexer.openAt? .blockMappingStart
  let lexer ← lexer.dropKey?
  some (((lexer.allowKey !lexer.inFlow).skip 1).emit .key)

def value? (lexer : Lexer) : Option Lexer := do
  let lexer ← match lexer.keyStart with
    | some start =>
      let lexer := (lexer.emitAt start.position .key).openBlock start.column start.position
        .blockMappingStart
      some { lexer with keyStart := none, keyAllowed := false }
    | none => (lexer.openAt? .blockMappingStart).map fun lexer => lexer.allowKey !lexer.inFlow
  some ((lexer.skip 1).emit .value)

/-- Reads a token that may begin a key. -/
def keyToken? (lexer : Lexer) (read? : Lexer → Cursor → Option (Token × Bool × Cursor)) :
    Option Lexer := do
  let lexer ← lexer.noteKey?
  let (token, keyAllowed, cursor) ← read? lexer lexer.cursor
  some ({ lexer with cursor, keyAllowed }.emit token)

def anchor? (token : String → Token) (lexer : Lexer) : Option Lexer :=
  lexer.keyToken? fun _ cursor =>
    (anchorName? cursor.skip).map fun (name, cursor) => (token name, false, cursor)

def tag? (lexer : Lexer) : Option Lexer :=
  lexer.keyToken? fun lexer cursor =>
    (Tag.read? lexer.inFlow cursor).map fun (token, cursor) => (token, false, cursor)

def quoted? (single : Bool) (lexer : Lexer) : Option Lexer :=
  lexer.keyToken? fun _ cursor =>
    (Quoted.read? single cursor).map fun (text, cursor) => (.scalar text false, false, cursor)

def plain? (lexer : Lexer) : Option Lexer :=
  lexer.keyToken? fun lexer cursor =>
    (Plain.read? lexer.inFlow (lexer.indent + 1) cursor).map fun (text, broken, cursor) =>
      (.scalar text true, broken, cursor)

def block? (literal : Bool) (lexer : Lexer) : Option Lexer := do
  let lexer ← lexer.dropKey?
  let (text, cursor) ← Block.read? literal lexer.columns.head? lexer.cursor
  some ({ lexer with cursor, keyAllowed := true }.emit (.scalar text false))

/-- Signs that no plain scalar starts with; three of them may start one in front of a character
that is no blank. -/
def isIndicator (c : Char) : Bool := "-?:,[]\x7b\x7d#&*!|>'\"%@\x60".toList.contains c

def startsPlain (lexer : Lexer) (c : Char) : Bool :=
  !(isGap c || isIndicator c) ||
    (c = '-' && !lexer.cursor.seesAt 1 isSpaceOrTab) ||
    (!lexer.inFlow && (c = '?' || c = ':') && !lexer.cursor.endsAt 1)

/-- Reads the token that starts with a character. -/
def tokenAt? (lexer : Lexer) (c : Char) : Option Lexer :=
  if lexer.cursor.column = 0 && c = '%' then lexer.directive?
  else if lexer.cursor.atDocumentMark then lexer.documentMark?
  else match c with
    | '[' => lexer.openFlow? .flowSequenceStart
    | '\x7b' => lexer.openFlow? .flowMappingStart
    | ']' => lexer.closeFlow? .flowSequenceEnd
    | '\x7d' => lexer.closeFlow? .flowMappingEnd
    | ',' => lexer.comma?
    | '*' => lexer.anchor? .alias
    | '&' => lexer.anchor? .anchor
    | '!' => lexer.tag?
    | '\'' => lexer.quoted? true
    | '"' => lexer.quoted? false
    | _ =>
      if c = '-' && lexer.cursor.endsAt 1 then lexer.hyphen?
      else if c = '?' && (lexer.inFlow || lexer.cursor.endsAt 1) then lexer.key?
      else if c = ':' && (lexer.inFlow || lexer.cursor.endsAt 1) then lexer.value?
      else if c = '|' && !lexer.inFlow then lexer.block? true
      else if c = '>' && !lexer.inFlow then lexer.block? false
      else if lexer.startsPlain c then lexer.plain?
      else none

/-- Reads the tokens to the end of the text; every step takes a character. -/
def run? : (fuel : Nat) → Lexer → Option Lexer
  | 0, _ => none
  | fuel + 1, lexer => do
    let lexer ← (lexer.skipGap (lexer.cursor.rest.length + 1)).refreshKeys?
    let lexer := lexer.closeBlocks lexer.cursor.column
    match lexer.cursor.head? with
    | none => lexer.finish?
    | some c =>
      let lexer ← lexer.tokenAt? c
      run? fuel lexer

end Lexer

/-- The tokens of a text. A byte order mark may stand in front of it. -/
def tokens? (text : String) : Option (List Token) :=
  let cs := match text.toList with
    | '\uFEFF' :: rest => rest
    | cs => cs
  if !cs.all isAllowed then none
  else (Lexer.run? (cs.length + 1) (.start cs)).map (·.tokens.reverse)

end SchemaModel.Yaml
