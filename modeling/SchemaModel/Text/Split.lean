/-!
Looking for a text inside another.
-/

namespace SchemaModel.Text

/-- Splits a text where `mark` first stands in it: what is before the mark, and what behind. -/
def splitAt? (mark : List Char) : List Char → Option (List Char × List Char)
  | [] => none
  | c :: rest =>
    if mark.isPrefixOf (c :: rest) then some ([], (c :: rest).drop mark.length)
    else (splitAt? mark rest).map fun (before, behind) => (c :: before, behind)

def hasPart (part cs : List Char) : Bool := (splitAt? part cs).isSome

end SchemaModel.Text
