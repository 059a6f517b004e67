import SchemaModel.Decimal.Double

/-!
Decimal numerals: a sign, digits before and after the point, and an exponent. `Numeral.read?`
is the liberal grammar of numbers written in text (`.5`, `5.`, `+1e3`), `Numeral.toDouble?` the
nearest double.

`Numeral.toScaled?` is a second way to a double: the digits that fit 64 bits are taken as one
whole number, which is then scaled by powers of ten in double arithmetic, one rounding a step.
-/

namespace SchemaModel

structure Numeral where
  negative : Bool
  whole : List Char
  fraction : List Char
  exponent : Int
deriving DecidableEq, Repr

namespace Numeral

def digitValue (c : Char) : Nat := c.toNat - '0'.toNat

def natOfDigits (digits : List Char) : Nat :=
  digits.foldl (fun n c => 10 * n + digitValue c) 0

/-- The digits at the front of a text, and what follows them. -/
def spanDigits (cs : List Char) : List Char × List Char :=
  (cs.takeWhile Char.isDigit, cs.dropWhile Char.isDigit)

/-- A sign at the front, if there is one; a plus changes nothing. -/
def splitSign : List Char → Bool × List Char
  | '-' :: rest => (true, rest)
  | '+' :: rest => (false, rest)
  | cs => (false, cs)

/-- An exponent that takes up the whole text: a sign and at least one digit. -/
def exponent? (cs : List Char) : Option Int :=
  let (negative, digits) := splitSign cs
  if digits.isEmpty || !digits.all Char.isDigit then none
  else if negative then some (-(natOfDigits digits : Int)) else some (natOfDigits digits)

/-- Reads a numeral that takes up the whole text. There is a digit before or after the point,
and the point may be left out. -/
def read? (cs : List Char) : Option Numeral :=
  let (negative, cs) := splitSign cs
  let (whole, cs) := spanDigits cs
  let (fraction, cs) := match cs with
    | '.' :: rest => spanDigits rest
    | cs => ([], cs)
  if whole.isEmpty && fraction.isEmpty then none
  else match cs with
    | [] => some ⟨negative, whole, fraction, 0⟩
    | c :: rest =>
      if c = 'e' || c = 'E' then (exponent? rest).map fun e => ⟨negative, whole, fraction, e⟩
      else none

/-- The nearest double, none if the number is too large. -/
def toDouble? (n : Numeral) : Option Double :=
  Double.ofDecimal n.negative (natOfDigits (n.whole ++ n.fraction))
    (n.exponent - n.fraction.length)

/-- One more than the largest unsigned 64-bit number. -/
def wordLimit : Nat := Nat.pow 2 64

/-- Exponents from here on are not read digit by digit. -/
def exponentLimit : Nat := Nat.pow 2 31

/-- Takes digits while the number they form fits 64 bits; also the digits left over. -/
def takeWord (acc : Nat) : List Char → Nat × List Char
  | [] => (acc, [])
  | c :: rest =>
    let next := 10 * acc + digitValue c
    if next < wordLimit then takeWord next rest else (acc, c :: rest)

/-- The leading digits as one number, and the power of ten that goes with it. Digits before the
point that do not fit raise the power, digits after it that do not fit are dropped. -/
def significand (n : Numeral) : Nat × Int :=
  let (whole, left) := takeWord 0 n.whole
  let (all, dropped) := takeWord whole n.fraction
  (all, (left.length : Int) - (n.fraction.length - dropped.length : Nat))

/-- Scales a double by a power of ten. Powers beyond the table are taken in steps, and a scale
too far down ends at zero. -/
def scaleDown (x : Double) (power : Nat) : Option Double :=
  if power ≤ 308 then (Double.ofDecimal false 1 power).bind x.div
  else if x.isZero then some x
  else ((Double.ofDecimal false 1 308).bind x.div).bind fun y => scaleDown y (power - 308)
termination_by power

def scale (x : Double) (power : Int) : Option Double :=
  if power < 0 then scaleDown x (-power).toNat
  else if power ≤ 308 then (Double.ofDecimal false 1 power).bind x.mul
  else if x.isZero then some x
  else none

/-- The double found by scaling the leading digits; none if it is too large. -/
def toScaled? (n : Numeral) : Option Double :=
  let (digits, power) := n.significand
  let signed (x : Double) : Double := { x with negative := n.negative }
  if exponentLimit ≤ n.exponent.natAbs then
    if digits = 0 || n.exponent < 0 then some (Double.zero n.negative) else none
  else ((Double.ofNat digits).bind fun x => scale x (power + n.exponent)).map signed

end Numeral

end SchemaModel
