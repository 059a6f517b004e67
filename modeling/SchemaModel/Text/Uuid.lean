import SchemaModel.Json.Parser

/-!
Identifiers of 32 hexadecimal digits, in any of their four forms, and their plain form.
-/

namespace SchemaModel.Text

def isHexDigit (c : Char) : Bool := (Json.hexValue? c).isSome

/-- Puts hyphens between groups of 8, 4, 4, 4 and 12 digits. -/
def hyphenate (digits : List Char) : List Char :=
  digits.take 8 ++ '-' :: (digits.drop 8).take 4 ++ '-' :: (digits.drop 12).take 4 ++
    '-' :: (digits.drop 16).take 4 ++ '-' :: digits.drop 20

/-- The digits of a hyphenated identifier. -/
def hyphenated? (cs : List Char) : Option (List Char) :=
  let digits := cs.filter (· != '-')
  if digits.length = 32 && digits.all isHexDigit && cs = hyphenate digits then some digits
  else none

def uuidDigits? (cs : List Char) : Option (List Char) :=
  if cs.length = 32 && cs.all isHexDigit then some cs
  else match cs with
    | '\x7b' :: rest =>
      if rest.getLast? = some '\x7d' then hyphenated? rest.dropLast else none
    | cs =>
      if (cs.take 9).map Char.toLower = "urn:uuid:".toList then hyphenated? (cs.drop 9)
      else hyphenated? cs

/-- The identifier in small letters with hyphens. -/
def uuid? (cs : List Char) : Option String :=
  (uuidDigits? cs).map fun digits => String.ofList (hyphenate (digits.map Char.toLower))

end SchemaModel.Text
