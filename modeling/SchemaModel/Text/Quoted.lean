import SchemaModel.Text.Blank
import SchemaModel.Json.Printer

/-!
String literals between double quotes. A dollar sign is escaped, since it would start a
template; control characters are written by name or by four hexadecimal digits.
-/

namespace SchemaModel.Text

def quoteChar (c : Char) : List Char :=
  if c = '\\' then ['\\', '\\']
  else if c = '"' then ['\\', '"']
  else if c = '$' then ['\\', '$']
  else if c = '\n' then ['\\', 'n']
  else if c = '\r' then ['\\', 'r']
  else if c = '\t' then ['\\', 't']
  else if c = '\x08' then ['\\', 'b']
  else if isControl c then '\\' :: 'u' :: Json.hex4 c.toNat
  else [c]

def quoteChars (cs : List Char) : List Char := '"' :: cs.flatMap quoteChar ++ ['"']

def quote (s : String) : String := String.ofList (quoteChars s.toList)

end SchemaModel.Text
