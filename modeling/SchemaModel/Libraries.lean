import SchemaModel.Document.Basic

/-!
The functions that come from libraries, as parameters. A definition that needs one of them, and
whatever is built on it, takes all of them; what a theorem asks of them is a law of its own,
stated beside it. `Libraries.standard` fills them in for the program.
-/

namespace SchemaModel

class Libraries where
  /-- Writes a text in ASCII. -/
  ascii : List Char → List Char
  /-- Joins words, each with a capital at its start. -/
  pascal : List Char → List Char
  /-- Joins words in capitals by underscores. -/
  constant : List Char → List Char
  /-- Says why a text is no regular expression, if it is none. -/
  patternError? : String → Option String
  /-- The plain form of an identifier of 32 hexadecimal digits. -/
  uuid? : List Char → Option String
  isDate : String → Bool
  isInstant : String → Bool
  /-- Whether a text is an absolute address, which some entries of a header have to be. -/
  isUrl : String → Bool
  /-- Reads the header of a document. -/
  info? : Json → Option Info

end SchemaModel
