/-!
Finite binary64 numbers as exact data, and rounding to them. A double is a sign, a whole
significand and a power of two, so arithmetic on it is arithmetic on natural numbers.

`Double.ofRatio` rounds a positive ratio to the nearest double, a tie to the even significand.
Multiplication, division and reading decimal text all go through it.
-/

namespace SchemaModel

/-- The number `mantissa · 2 ^ exponent`, below zero if `negative`. -/
structure Double where
  negative : Bool
  mantissa : Nat
  exponent : Int
deriving DecidableEq, Repr, Inhabited

namespace Double

/-- Every significand is below two to this power. -/
def precision : Nat := 53

def minExponent : Int := -1074

def maxExponent : Int := 971

def zero (negative : Bool) : Double := ⟨negative, 0, minExponent⟩

def isZero (x : Double) : Bool := x.mantissa == 0

/-- Equality of values: the two zeros are equal. -/
def same (x y : Double) : Bool :=
  (x.isZero && y.isZero) || x == y

/-- The whole number nearest to `num / den`, a half going to the even one. -/
def roundDiv (num den : Nat) : Nat :=
  let q := num / den
  let r := num % den
  if 2 * r > den || (2 * r == den && q % 2 == 1) then q + 1 else q

/-- The greatest `k` with `2 ^ k ≤ num / den`, for positive arguments. -/
def floorLog2 (num den : Nat) : Int :=
  let guess : Int := (num.log2 : Int) - den.log2
  let reached :=
    if 0 ≤ guess then den * Nat.pow 2 guess.toNat ≤ num else den ≤ num * Nat.pow 2 (-guess).toNat
  if reached then guess else guess - 1

/-- The double nearest to `num / den · 2 ^ scale`; none if that is too large. -/
def ofRatio (negative : Bool) (num den : Nat) (scale : Int) : Option Double :=
  if num = 0 then some (zero negative)
  else
    let exponent := max (floorLog2 num den + scale - 52) minExponent
    let shift := scale - exponent
    let mantissa :=
      if 0 ≤ shift then roundDiv (num * Nat.pow 2 shift.toNat) den
      else roundDiv num (den * Nat.pow 2 (-shift).toNat)
    let carried := mantissa == Nat.pow 2 precision
    let exponent := if carried then exponent + 1 else exponent
    if exponent > maxExponent then none
    else some ⟨negative, if carried then Nat.pow 2 (precision - 1) else mantissa, exponent⟩

def ofNat (n : Nat) : Option Double := ofRatio false n 1 0

def mul (x y : Double) : Option Double :=
  ofRatio (x.negative != y.negative) (x.mantissa * y.mantissa) 1 (x.exponent + y.exponent)

/-- The quotient by a double that is not zero. -/
def div (x y : Double) : Option Double :=
  ofRatio (x.negative != y.negative) x.mantissa y.mantissa (x.exponent - y.exponent)

/-- The double nearest to `digits · 10 ^ power`; none if that is too large. Powers far outside
the range are settled by the number of bits of `digits`. -/
def ofDecimal (negative : Bool) (digits : Nat) (power : Int) : Option Double :=
  if digits = 0 then some (zero negative)
  else if 0 ≤ power then
    if power > 310 then none else ofRatio negative (digits * Nat.pow 10 power.toNat) 1 0
  else if power < -((400 : Int) + digits.log2) then some (zero negative)
  else ofRatio negative digits (Nat.pow 10 (-power).toNat) 0

end Double

end SchemaModel
