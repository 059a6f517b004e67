import SchemaModel.Decimal.Double

/-!
The shortest decimal text of a double: the fewest digits that read back as the same number,
of those the nearest to it, and of two equally near the even one.

The numbers that read back as `m · 2 ^ e` form an interval around it. For one digit, two
digits and so on, the two neighbours of the number on the decimal grid are tried; the first
grid with a neighbour inside the interval gives the digits.
-/

namespace SchemaModel

namespace Double

/-- The interval of a positive double in quarters of its last place: `low`, `value` and `high`
stand for multiples of `2 ^ (exponent - 2)`. The ends belong to it if `closed`. -/
structure Basin where
  low : Nat
  value : Nat
  high : Nat
  closed : Bool

def basin (x : Double) : Basin :=
  let narrow := x.mantissa == Nat.pow 2 (precision - 1) && x.exponent > minExponent
  ⟨4 * x.mantissa - (if narrow then 1 else 2), 4 * x.mantissa, 4 * x.mantissa + 2,
    x.mantissa % 2 == 0⟩

/-- The greatest `k` with `10 ^ k ≤ num / den`, found upwards from `start`. -/
def floorLog10 (num den : Nat) : (fuel : Nat) → (start : Int) → Int
  | 0, k => k
  | fuel + 1, k =>
    let next := k + 1
    let reached :=
      if 0 ≤ next then den * Nat.pow 10 next.toNat ≤ num else den ≤ num * Nat.pow 10 (-next).toNat
    if reached then floorLog10 num den fuel next else k

/-- Digits and a power of ten: the number `digits · 10 ^ power`. -/
structure Decimal where
  digits : Nat
  power : Int
deriving DecidableEq, Repr

/-- The better neighbour of `value / unit` on the grid of multiples of `10 ^ power`, if one lies
in the basin. All bounds are over the denominator `unit`. -/
def onGrid (low value high unit : Nat) (closed : Bool) (power : Int) : Option Decimal :=
  let scaleUp := if 0 ≤ power then 1 else Nat.pow 10 (-power).toNat
  let cell := unit * (if 0 ≤ power then Nat.pow 10 power.toNat else 1)
  let v := value * scaleUp
  let inside (d : Nat) : Bool :=
    let p := d * cell
    if closed then low * scaleUp ≤ p && p ≤ high * scaleUp
    else low * scaleUp < p && p < high * scaleUp
  let below := v / cell
  let above := below + 1
  match inside below, inside above with
  | false, false => none
  | true, false => some ⟨below, power⟩
  | false, true => some ⟨above, power⟩
  | true, true =>
    let down := v - below * cell
    let up := above * cell - v
    if down < up || (down == up && below % 2 == 0) then some ⟨below, power⟩
    else some ⟨above, power⟩

/-- The digits of a positive double that is not zero. -/
def shortest (x : Double) : Decimal :=
  let b := x.basin
  let quarter := x.exponent - 2
  let up := if 0 ≤ quarter then Nat.pow 2 quarter.toNat else 1
  let unit := if 0 ≤ quarter then 1 else Nat.pow 2 (-quarter).toNat
  let value := b.value * up
  let start := ((value.log2 : Int) - unit.log2) * 30103 / 100000 - 2
  let lead := floorLog10 value unit 6 start
  let grids := (List.range 17).map fun (n : Nat) => lead - (n : Int)
  match grids.findSome? (onGrid (b.low * up) value (b.high * up) unit b.closed) with
  | some d => d
  | none => ⟨value / unit, 0⟩

/-- How a number is laid out. Positional notation is used for leading powers of ten from
`least` to below `most`; other numbers have an exponent. -/
structure Layout where
  least : Int
  most : Int

def Layout.standard : Layout := ⟨-5, 16⟩

/-- Drops the zeros at the end of the digits. -/
def Decimal.strip (d : Decimal) : (fuel : Nat) → Decimal
  | 0 => d
  | fuel + 1 =>
    if d.digits % 10 == 0 && d.digits != 0 then Decimal.strip ⟨d.digits / 10, d.power + 1⟩ fuel
    else d

def zeros (n : Nat) : String := String.ofList (List.replicate n '0')

/-- Digits with a point after the first one, and none if there is only one. -/
def pointed (digits : String) : String :=
  match digits.toList with
  | first :: next :: rest => String.ofList (first :: '.' :: next :: rest)
  | _ => digits

def Layout.render (layout : Layout) (d : Decimal) : String :=
  let digits := toString d.digits
  let lead : Int := d.power + digits.length - 1
  if layout.most ≤ lead then s!"{pointed digits}e+{lead.toNat}"
  else if lead < layout.least then s!"{pointed digits}e-{(-lead).toNat}"
  else if 0 ≤ d.power then digits ++ zeros d.power.toNat ++ ".0"
  else if 0 ≤ lead then
    let whole := lead.toNat + 1
    String.ofList (digits.toList.take whole) ++ "." ++ String.ofList (digits.toList.drop whole)
  else "0." ++ zeros (-lead - 1).toNat ++ digits

/-- The text of a double. A whole number keeps a fraction, so it never reads as an integer. -/
def text (x : Double) : String :=
  let sign := if x.negative then "-" else ""
  if x.isZero then sign ++ "0.0"
  else sign ++ Layout.standard.render (x.shortest.strip 400)

end Double

end SchemaModel
