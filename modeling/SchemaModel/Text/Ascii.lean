/-!
Spelling characters in ASCII, as far as a small table goes. A character of ASCII stands for itself,
a character of the table for its spelling, and any other for nothing.
-/

namespace SchemaModel.Text

/-- The spellings of some characters outside ASCII, by code point. -/
def spellings : List (Nat × String) := [
  (0x00A0, " "), (0x00BD, "1/2"), (0x00C0, "A"), (0x00C4, "A"), (0x00C6, "Ae"), (0x00C9, "E"),
  (0x00D7, "*"), (0x00DC, "U"), (0x00DF, "ss"), (0x00E1, "a"), (0x00E9, "e"), (0x00EF, "i"),
  (0x00F1, "n"), (0x00F6, "o"), (0x00FA, "u"), (0x00FE, "th"), (0x0130, "I"), (0x0131, "i"),
  (0x0141, "L"), (0x0153, "oe"), (0x0301, ""), (0x03A9, "O"), (0x03B1, "a"), (0x03B2, "v"),
  (0x03B3, "g"), (0x0416, "Zh"), (0x041F, "P"), (0x0432, "v"), (0x0435, "e"), (0x0438, "i"),
  (0x043F, "p"), (0x0440, "r"), (0x0442, "t"), (0x200B, ""), (0x2014, "-"), (0x201C, "\""),
  (0x201D, "\""), (0x2026, "..."), (0x2603, ":snowman2:"), (0x65E5, "Ri"), (0x672C, "Ben"),
  (0x8A9E, "Yu"), (0xAD6D, "Gug"), (0xD55C, "Han"), (0xFB01, "fi"), (0xFEFF, ""), (0xFF10, "0"),
  (0xFF11, "1"), (0x1F600, ":grinning:"),
  (0x00C1, "A"), (0x00C2, "A"), (0x00C3, "A"), (0x00C5, "A"), (0x00C7, "C"), (0x00C8, "E"),
  (0x00CA, "E"), (0x00CB, "E"), (0x00CC, "I"), (0x00CD, "I"), (0x00CE, "I"), (0x00CF, "I"),
  (0x00D0, "D"), (0x00D1, "N"), (0x00D2, "O"), (0x00D3, "O"), (0x00D4, "O"), (0x00D5, "O"),
  (0x00D6, "O"), (0x00D8, "O"), (0x00D9, "U"), (0x00DA, "U"), (0x00DB, "U"), (0x00DD, "Y"),
  (0x00DE, "Th"), (0x00E0, "a"), (0x00E2, "a"), (0x00E3, "a"), (0x00E4, "a"), (0x00E5, "a"),
  (0x00E6, "ae"), (0x00E7, "c"), (0x00E8, "e"), (0x00EA, "e"), (0x00EB, "e"), (0x00EC, "i"),
  (0x00ED, "i"), (0x00EE, "i"), (0x00F0, "d"), (0x00F2, "o"), (0x00F3, "o"), (0x00F4, "o"),
  (0x00F5, "o"), (0x00F8, "o"), (0x00F9, "u"), (0x00FB, "u"), (0x00FC, "u"), (0x00FD, "y"),
  (0x00FF, "y"), (0x0142, "l"), (0x0152, "Oe"), (0x0160, "S"), (0x0161, "s"), (0x017D, "Z"),
  (0x017E, "z"), (0x2013, "-"), (0x2018, "'"), (0x2019, "'")]

/-- A character in ASCII letters, digits and signs. -/
def spell (c : Char) : List Char :=
  if c.toNat < 128 then [c]
  else match spellings.lookup c.toNat with
    | some spelling => spelling.toList
    | none => []

def toAscii (cs : List Char) : List Char := cs.flatMap spell

end SchemaModel.Text
