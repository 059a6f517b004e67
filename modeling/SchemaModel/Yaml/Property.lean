import SchemaModel.Json.Parser
import SchemaModel.Yaml.Cursor
import SchemaModel.Yaml.Token

/-!
What is written beside the nodes of a YAML text: anchors, aliases, tags and directives.
-/

namespace SchemaModel.Yaml

/-- Signs that may stand behind the name of an anchor. -/
def endsName (c : Char) : Bool := isGap c || "?:,]\x7d%@\x60".toList.contains c

/-- The name of an anchor or an alias, behind its sign. -/
def anchorName? (cursor : Cursor) : Option (String × Cursor) :=
  let (name, cursor) := cursor.span isNameChar
  if name.isEmpty || !(cursor.atEnd || cursor.seesAny endsName) then none
  else some (name, cursor)

namespace Tag

/-- Characters of a tag outside the percent escapes. Brackets and commas may stand only between
angle brackets. -/
def isUriChar (verbatim : Bool) (c : Char) : Bool :=
  isNameChar c || ";/?:@&=+$.!~*'()".toList.contains c || (verbatim && ",[]".toList.contains c)

/-- A percent escape of one byte. -/
def octet? : List Char → Option (Nat × List Char)
  | '%' :: a :: b :: rest => do
    let a ← Json.hexValue? a
    let b ← Json.hexValue? b
    some (16 * a + b, rest)
  | _ => none

/-- The bytes that follow the first one of a character. -/
def moreOctets? : (count value : Nat) → List Char → Option (Nat × List Char)
  | 0, value, cs => some (value, cs)
  | count + 1, value, cs => do
    let (byte, rest) ← octet? cs
    if byte / 64 = 2 then moreOctets? count (64 * value + byte % 64) rest else none

/-- A character that is written as percent escapes of its bytes. -/
def escaped? (cs : List Char) : Option (Char × List Char) := do
  let (byte, rest) ← octet? cs
  let (value, rest) ←
    if byte < 0x80 then some (byte, rest)
    else if byte / 32 = 6 then moreOctets? 1 (byte % 32) rest
    else if byte / 16 = 14 then moreOctets? 2 (byte % 16) rest
    else if byte / 8 = 30 then moreOctets? 3 (byte % 8) rest
    else none
  if value.isValidChar then some (Char.ofNat value, rest) else none

/-- The characters of a tag from this place on. -/
def uri? (verbatim : Bool) : (fuel : Nat) → (text : String) → Cursor → Option (String × Cursor)
  | 0, _, _ => none
  | fuel + 1, text, cursor =>
    match cursor.head? with
    | none => some (text, cursor)
    | some c =>
      if isUriChar verbatim c then uri? verbatim fuel (text.push c) cursor.skip
      else if c = '%' then do
        let (d, rest) ← escaped? cursor.rest
        uri? verbatim fuel (text.push d) (cursor.skipMany (cursor.rest.length - rest.length))
      else some (text, cursor)

def readUri? (verbatim : Bool) (text : String) (cursor : Cursor) : Option (String × Cursor) :=
  uri? verbatim (cursor.rest.length + 1) text cursor

/-- Refuses a tag without characters. -/
def nonempty? (found : String × Cursor) : Option (String × Cursor) :=
  if found.1.isEmpty then none else some found

/-- A handle: an exclamation mark, a name, and a second mark if there is one. -/
def handle? (cursor : Cursor) : Option (String × Cursor) :=
  if !cursor.sees '!' then none
  else
    let (name, cursor) := cursor.skip.span isNameChar
    if cursor.sees '!' then some ("!" ++ name ++ "!", cursor.skip) else some ("!" ++ name, cursor)

/-- The two parts of a tag that starts with a handle. Without a second mark the handle is the
single mark, and what was read of it begins the second part; the mark alone is a tag itself. -/
def shorthand? (cursor : Cursor) : Option (Token × Cursor) := do
  let (handle, cursor) ← handle? cursor
  if handle.length ≠ 1 && handle.endsWith "!" then
    let (suffix, cursor) ← (readUri? false "" cursor).bind nonempty?
    some (.tag handle suffix, cursor)
  else
    let (suffix, cursor) ← readUri? false (String.ofList (handle.toList.drop 1)) cursor
    some (if suffix.isEmpty then .tag "" "!" else .tag "!" suffix, cursor)

/-- A tag between angle brackets, which stands as it is. -/
def verbatim? (cursor : Cursor) : Option (Token × Cursor) := do
  let (suffix, cursor) ← (readUri? true "" (cursor.skipMany 2)).bind nonempty?
  if cursor.sees '>' then some (.tag "" suffix, cursor.skip) else none

/-- A tag at this place. A gap follows it, or inside brackets a comma. -/
def read? (flow : Bool) (cursor : Cursor) : Option (Token × Cursor) := do
  let (token, cursor) ←
    if cursor.seesAt 1 (· = '<') then verbatim? cursor else shorthand? cursor
  if cursor.endsAt 0 || (flow && cursor.sees ',') then some (token, cursor) else none

end Tag

namespace Directive

/-- A number of at most nine digits. -/
def number? (cursor : Cursor) : Option (Nat × Cursor) :=
  let (digits, cursor) := cursor.span Char.isDigit
  if digits.isEmpty || 9 < digits.length then none
  else some (Numeral.natOfDigits digits.toList, cursor)

def version? (cursor : Cursor) : Option (Token × Cursor) := do
  let (major, cursor) ← number? cursor
  if !cursor.sees '.' then none
  let (minor, cursor) ← number? cursor.skip
  some (.versionDirective major minor, cursor)

/-- A handle, which ends in a mark, and what it stands for. -/
def tag? (cursor : Cursor) : Option (Token × Cursor) := do
  let (handle, cursor) ← Tag.handle? cursor
  if !handle.endsWith "!" || !cursor.seesAny isSpaceOrTab then none
  let (lead, cursor) ← (Tag.readUri? true "" (cursor.skipWhile isSpaceOrTab)).bind Tag.nonempty?
  if cursor.endsAt 0 then some (.tagDirective handle lead, cursor) else none

/-- A directive at this place, to the end of its line. -/
def read? (cursor : Cursor) : Option (Token × Cursor) := do
  let (name, cursor) := cursor.skip.span isNameChar
  if !cursor.endsAt 0 then none
  let cursor := cursor.skipWhile isSpaceOrTab
  let (token, cursor) ← match name with
    | "YAML" => version? cursor
    | "TAG" => tag? cursor
    | _ => none
  let cursor ← cursor.skipLine?
  some (token, cursor)

end Directive

end SchemaModel.Yaml
