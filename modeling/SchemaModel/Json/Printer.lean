import SchemaModel.Json.Basic
import SchemaModel.Decimal.Shortest

/-!
Writing JSON text, on one line (`Json.compress`) or indented by two spaces (`Json.pretty`).
Only quotes, backslashes and control characters are escaped.
-/

namespace SchemaModel

def Number.text : Number → String
  | .int n => toString n
  | .double x => x.text

namespace Json

/-- The last hexadecimal digit of a number. -/
def hexDigit (n : Nat) : Char :=
  "0123456789abcdef".toList.getD (n % 16) '0'

/-- The four hexadecimal digits of a 16-bit number. -/
def hex4 (n : Nat) : List Char :=
  [hexDigit (n / 4096), hexDigit (n / 256), hexDigit (n / 16), hexDigit n]

def escapeChar (c : Char) : List Char :=
  if c = '"' then ['\\', '"']
  else if c = '\\' then ['\\', '\\']
  else if c = '\n' then ['\\', 'n']
  else if c = '\r' then ['\\', 'r']
  else if c = '\t' then ['\\', 't']
  else if c = '\x08' then ['\\', 'b']
  else if c = '\x0c' then ['\\', 'f']
  else if c.toNat < 0x20 then '\\' :: 'u' :: hex4 c.toNat
  else [c]

def quoted (s : String) : String :=
  String.ofList ('"' :: s.toList.flatMap escapeChar ++ ['"'])

mutual

def compress : Json → String
  | .null => "null"
  | .bool b => if b then "true" else "false"
  | .num n => n.text
  | .str s => quoted s
  | .arr items => "[" ++ ",".intercalate (compressItems items) ++ "]"
  | .obj fields => "\x7b" ++ ",".intercalate (compressFields fields) ++ "\x7d"

def compressItems : List Json → List String
  | [] => []
  | item :: rest => compress item :: compressItems rest

def compressFields : List (String × Json) → List String
  | [] => []
  | (key, value) :: rest => (quoted key ++ ":" ++ compress value) :: compressFields rest

end

/-- Lines between brackets, each further in than the brackets, which stand at `indent`. -/
def bracketed (opening closing indent : String) (lines : List String) : String :=
  match lines with
  | [] => opening ++ closing
  | _ =>
    let inner := indent ++ "  "
    opening ++ "\n" ++ ",\n".intercalate (lines.map (inner ++ ·)) ++ "\n" ++ indent ++ closing

mutual

def prettyAt (indent : String) : Json → String
  | .arr items => bracketed "[" "]" indent (prettyItems (indent ++ "  ") items)
  | .obj fields => bracketed "\x7b" "\x7d" indent (prettyFields (indent ++ "  ") fields)
  | .null => "null"
  | .bool b => if b then "true" else "false"
  | .num n => n.text
  | .str s => quoted s

def prettyItems (indent : String) : List Json → List String
  | [] => []
  | item :: rest => prettyAt indent item :: prettyItems indent rest

def prettyFields (indent : String) : List (String × Json) → List String
  | [] => []
  | (key, value) :: rest =>
    (quoted key ++ ": " ++ prettyAt indent value) :: prettyFields indent rest

end

def pretty (value : Json) : String := prettyAt "" value

end Json

end SchemaModel
