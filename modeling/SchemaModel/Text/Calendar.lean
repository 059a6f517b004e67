import SchemaModel.Decimal.Numeral
import SchemaModel.Text.Blank

/-!
Texts of dates and of instants. `isDate` is liberal: blanks may stand before each number, and
months and days may have one digit. `isInstant` is the fixed-width form with an offset.
-/

namespace SchemaModel.Text

def isLeapYear (year : Int) : Bool :=
  Int.fmod year 4 = 0 && (Int.fmod year 100 ≠ 0 || Int.fmod year 400 = 0)

def daysInMonth (year : Int) (month : Nat) : Nat :=
  match month with
  | 2 => if isLeapYear year then 29 else 28
  | 4 => 30
  | 6 => 30
  | 9 => 30
  | 11 => 30
  | _ => 31

/-- The years that a calendar day can have. -/
def inYearRange (year : Int) : Bool := -262143 ≤ year && year ≤ 262142

def isCalendarDay (year : Int) (month day : Nat) : Bool :=
  inYearRange year && 1 ≤ month && month ≤ 12 && 1 ≤ day && day ≤ daysInMonth year month

/-- At most `width` digits at the front of a text, at least one. -/
def splitNumber (width : Nat) (cs : List Char) : Option (Nat × List Char) :=
  let digits := (cs.take width).takeWhile Char.isDigit
  if digits.isEmpty then none
  else some (Numeral.natOfDigits digits, cs.drop digits.length)

/-- A year: up to four digits, or a sign and any number of digits. -/
def splitYear (cs : List Char) : Option (Int × List Char) :=
  match cs with
  | '-' :: rest => (splitNumber rest.length rest).map fun (n, rest) => (-(n : Int), rest)
  | '+' :: rest => (splitNumber rest.length rest).map fun (n, rest) => ((n : Int), rest)
  | cs => (splitNumber 4 cs).map fun (n, rest) => ((n : Int), rest)

def splitHyphen : List Char → Option (List Char)
  | '-' :: rest => some rest
  | _ => none

/-- The year, month and day of a date text that takes up the whole text. -/
def date? (cs : List Char) : Option (Int × Nat × Nat) := do
  let (year, cs) ← splitYear (trimStart cs)
  let cs ← splitHyphen cs
  let (month, cs) ← splitNumber 2 (trimStart cs)
  let cs ← splitHyphen cs
  let (day, cs) ← splitNumber 2 (trimStart cs)
  if cs.isEmpty && isCalendarDay year month day then some (year, month, day) else none

def isDate (text : String) : Bool := (date? text.toList).isSome

/-- Exactly `width` digits. -/
def exactNumber (width : Nat) (cs : List Char) : Option (Nat × List Char) :=
  let digits := cs.take width
  if digits.length = width && digits.all Char.isDigit then
    some (Numeral.natOfDigits digits, cs.drop width)
  else none

def splitChar (c : Char) : List Char → Option (List Char)
  | d :: rest => if d = c then some rest else none
  | [] => none

/-- A fraction of a second, if there is a point. -/
def skipFraction : List Char → Option (List Char)
  | '.' :: rest =>
    let (digits, rest) := Numeral.spanDigits rest
    if digits.isEmpty then none else some rest
  | cs => some cs

/-- An offset that takes up the whole text: a letter, or hours and minutes behind a sign. -/
def isOffset : List Char → Bool
  | [] => false
  | [c] => c = 'Z' || c = 'z'
  | sign :: cs =>
    (sign = '+' || sign = '-' || sign = '\u2212') &&
      (do
        let (hours, cs) ← exactNumber 2 cs
        let cs ← splitChar ':' cs
        let (minutes, cs) ← exactNumber 2 cs
        some (cs.isEmpty && hours < 24 && minutes < 60)) = some true

def isInstant (text : String) : Bool :=
  (do
    let (year, cs) ← exactNumber 4 text.toList
    let cs ← splitChar '-' cs
    let (month, cs) ← exactNumber 2 cs
    let cs ← splitChar '-' cs
    let (day, cs) ← exactNumber 2 cs
    let cs ← match cs with
      | c :: rest => if c = 'T' || c = 't' || c = ' ' then some rest else none
      | [] => none
    let (hour, cs) ← exactNumber 2 cs
    let cs ← splitChar ':' cs
    let (minute, cs) ← exactNumber 2 cs
    let cs ← splitChar ':' cs
    let (second, cs) ← exactNumber 2 cs
    let cs ← skipFraction cs
    some (isCalendarDay year month day && hour < 24 && minute < 60 && second ≤ 60 &&
      isOffset cs)) = some true

end SchemaModel.Text
