import SchemaModel.Proofs.Basin
import SchemaModel.Proofs.FloatingLiteral

/-!
The shortest decimal number of a double lies in the interval around the double
(`Double.shortest_attracts`): the last grid on which it is sought is so fine that one of two
neighbours does. So a number that was read is read again from its text (`Numeral.read?_text`), and
the literal of a floating default is written with digits of which the default is the nearest double
(`Graph.coerce_floating_nearest`).
-/

namespace SchemaModel

namespace Double

/-- A power of ten that was reached stays below the ratio. -/
theorem floorLog10_le {num den : ℕ} (hd : 0 < den) (fuel : ℕ) {start : Int}
    (h : (10 : ℚ) ^ start ≤ num / den) : (10 : ℚ) ^ floorLog10 num den fuel start ≤ num / den := by
  induction fuel generalizing start with
  | zero => exact h
  | succ fuel ih =>
    have hreached := zpow_le_div_iff (show 0 < 10 by norm_num) num hd (start + 1)
    rw [floorLog10]
    simp only [← hreached]
    split
    · rename_i hnext
      exact ih (by exact_mod_cast hnext)
    · exact h

theorem zpow_pow_eq {a : ℚ} (k : Int) (n : ℕ) : (a ^ k) ^ n = (a ^ n) ^ k := by
  rw [← zpow_natCast, ← zpow_natCast, ← zpow_mul, ← zpow_mul, mul_comm]

/-- The ratio of the logarithms, rounded down, is a power of ten below fifty times the power of
two, for the powers that occur. -/
theorem zpow_ten_le {a : Int} (hlow : -1100 ≤ a) (hhigh : a ≤ 1100) :
    (10 : ℚ) ^ (a * 30103 / 100000) ≤ 50 * 2 ^ a := by
  have hfloor : 100000 * (a * 30103 / 100000) ≤ a * 30103 := Int.mul_ediv_self_le (by norm_num)
  generalize a * 30103 / 100000 = k at *
  rcases le_or_gt 0 k with hk | hk
  · -- the third power of ten is below the tenth of two
    have hpower : (10 : ℚ) ^ 3 ≤ 2 ^ 10 := by norm_num
    rw [← pow_le_pow_iff_left₀ (by positivity) (by positivity) (show 3 ≠ 0 by norm_num)]
    calc ((10 : ℚ) ^ k) ^ 3 = (10 ^ 3) ^ k := zpow_pow_eq k 3
      _ ≤ (2 ^ 10) ^ k := zpow_le_zpow_left₀ hk (by norm_num) hpower
      _ = 2 ^ (10 * k) := by rw [zpow_mul]; rfl
      _ ≤ 2 ^ (12 + a * 3) := zpow_le_zpow_right₀ (by norm_num) (by omega)
      _ = (16 * 2 ^ a) ^ 3 := by
        rw [zpow_add₀ two_ne_zero, zpow_mul, mul_pow]
        norm_num
      _ ≤ (50 * 2 ^ a) ^ 3 := by
        gcongr
        norm_num
  · -- and the 28th above the 93rd
    have hpower : (2 : ℚ) ^ 93 ≤ 10 ^ 28 := by norm_num
    rw [← pow_le_pow_iff_left₀ (by positivity) (by positivity) (show 28 ≠ 0 by norm_num)]
    calc ((10 : ℚ) ^ k) ^ 28 = (10 ^ 28) ^ k := zpow_pow_eq k 28
      _ ≤ (2 ^ 93) ^ k := zpow_le_zpow_of_neg (by positivity) hpower hk
      _ = 2 ^ (93 * k) := by rw [zpow_mul]; rfl
      _ ≤ 2 ^ (28 + a * 28) := zpow_le_zpow_right₀ (by norm_num) (by omega)
      _ = (2 * 2 ^ a) ^ 28 := by
        rw [zpow_add₀ two_ne_zero, zpow_mul, mul_pow]
        norm_num
      _ ≤ (50 * 2 ^ a) ^ 28 := by
        gcongr
        norm_num

theorem start_le {num den : ℕ} (hn : 0 < num) (hd : 0 < den)
    (hlow : -1100 ≤ (num.log2 : Int) - den.log2) (hhigh : (num.log2 : Int) - den.log2 ≤ 1100) :
    (10 : ℚ) ^ (((num.log2 : Int) - den.log2) * 30103 / 100000 - 2) ≤ num / den := by
  have hbits := zpow_log2_le_div hn hd
  have hten := zpow_ten_le hlow hhigh
  generalize (num.log2 : Int) - den.log2 = a at *
  calc (10 : ℚ) ^ (a * 30103 / 100000 - 2) = 10 ^ (a * 30103 / 100000) / 100 := by
        rw [zpow_sub₀ (by norm_num)]
        norm_num
    _ ≤ 2 ^ (a - 1) := by
        rw [zpow_sub_one₀ two_ne_zero]
        linarith
    _ ≤ num / den := hbits

/-- A power as a ratio of whole numbers. -/
theorem exists_power {b : ℕ} (hb : 0 < b) (power : Int) : ∃ ups downs : ℕ,
    0 < ups ∧ 0 < downs ∧ (if 0 ≤ power then Nat.pow b power.toNat else 1) = ups ∧
    (if 0 ≤ power then 1 else Nat.pow b (-power).toNat) = downs ∧
    (ups : ℚ) = (b : ℚ) ^ power * downs := by
  have hbase : (b : ℚ) ≠ 0 := by exact_mod_cast hb.ne'
  rcases le_or_gt 0 power with hpower | hpower
  · refine ⟨b ^ power.toNat, 1, Nat.pow_pos hb, one_pos, if_pos hpower, if_pos hpower, ?_⟩
    have hcast : (b : ℚ) ^ power = b ^ power.toNat := by
      rw [← zpow_natCast, Int.toNat_of_nonneg hpower]
    rw [hcast]
    simp
  · refine ⟨1, b ^ (-power).toNat, one_pos, Nat.pow_pos hb, if_neg hpower.not_ge,
      if_neg hpower.not_ge, ?_⟩
    have hcast : (b : ℚ) ^ power = ((b : ℚ) ^ (-power).toNat)⁻¹ := by
      rw [← zpow_natCast, Int.toNat_of_nonneg (by omega), zpow_neg, inv_inv]
    rw [hcast, Nat.cast_pow, Nat.cast_one, inv_mul_cancel₀ (pow_ne_zero _ hbase)]

section Grid

variable {low value high unit ups downs : ℕ}

/-- Ratios and points of a grid over one denominator. -/
theorem cast_ratio (hu : 0 < unit) (a : ℕ) :
    ((a * downs : ℕ) : ℚ) = a / unit * (unit * downs) := by
  have hunit : (0 : ℚ) < unit := by exact_mod_cast hu
  push_cast
  field_simp

theorem cast_point {power : ℚ} (hp : (ups : ℚ) = power * downs) (n : ℕ) :
    ((n * (unit * ups) : ℕ) : ℚ) = n * power * (unit * downs) := by
  push_cast
  rw [hp]
  ring

theorem between_iff (low high : ℕ) (hu : 0 < unit) (hd : 0 < downs) {power : ℚ}
    (hp : (ups : ℚ) = power * downs) (closed : Bool) (n : ℕ) :
    (if closed then decide (low * downs ≤ n * (unit * ups)) &&
        decide (n * (unit * ups) ≤ high * downs)
      else decide (low * downs < n * (unit * ups)) && decide (n * (unit * ups) < high * downs)) =
      true ↔ Between closed (low / unit) (high / unit) (n * power) := by
  have hunit : (0 : ℚ) < unit := by exact_mod_cast hu
  have hdowns : (0 : ℚ) < downs := by exact_mod_cast hd
  have hscale : (0 : ℚ) < unit * downs := by positivity
  cases closed
  · simp only [Bool.false_eq_true, if_false, Bool.and_eq_true, decide_eq_true_eq, Between]
    rw [← Nat.cast_lt (α := ℚ), ← Nat.cast_lt (α := ℚ), cast_point hp, cast_ratio hu, cast_ratio hu,
      mul_lt_mul_iff_left₀ hscale, mul_lt_mul_iff_left₀ hscale]
  · simp only [if_true, Bool.and_eq_true, decide_eq_true_eq, Between]
    rw [← Nat.cast_le (α := ℚ), ← Nat.cast_le (α := ℚ), cast_point hp, cast_ratio hu, cast_ratio hu,
      mul_le_mul_iff_left₀ hscale, mul_le_mul_iff_left₀ hscale]

/-- One of the two neighbours of a ratio on a grid is taken if one lies in the interval. -/
theorem onGrid_spec (low value high : ℕ) (hu : 0 < unit) (closed : Bool) (power : Int) :
    ∃ below : ℕ, below * (10 : ℚ) ^ power ≤ value / unit ∧
      (value : ℚ) / unit < (below + 1 : ℕ) * 10 ^ power ∧
      ((∃ d, onGrid low value high unit closed power = some d ∧
          Between closed (low / unit) (high / unit) d.value) ∨
        onGrid low value high unit closed power = none ∧
          ∀ n, n = below ∨ n = below + 1 →
            ¬Between closed (low / unit) (high / unit) (n * 10 ^ power)) := by
  obtain ⟨ups, downs, hups, hdowns, hupsEq, hdownsEq, hpower⟩ :=
    exists_power (show 0 < 10 by norm_num) power
  rw [Nat.cast_ofNat] at hpower
  have hinside := between_iff low high hu hdowns hpower closed
  have hcell : 0 < unit * ups := Nat.mul_pos hu hups
  have hunit : (0 : ℚ) < unit := by exact_mod_cast hu
  have hdownsCast : (0 : ℚ) < downs := by exact_mod_cast hdowns
  have hscale : (0 : ℚ) < unit * downs := by positivity
  refine ⟨value * downs / (unit * ups), ?_, ?_, ?_⟩
  · rw [← mul_le_mul_iff_left₀ hscale, ← cast_point hpower, ← cast_ratio hu, Nat.cast_le]
    exact Nat.div_mul_le_self _ _
  · rw [← mul_lt_mul_iff_left₀ hscale, ← cast_point hpower, ← cast_ratio hu, Nat.cast_lt]
    exact Nat.lt_mul_of_div_lt (Nat.lt_succ_self _) hcell
  · rw [onGrid]
    simp only [hupsEq, hdownsEq]
    generalize value * downs / (unit * ups) = below
    split
    · rename_i hbelow habove
      refine .inr ⟨rfl, ?_⟩
      rintro n (rfl | rfl)
      · rw [← hinside, hbelow]
        exact Bool.false_ne_true
      · rw [← hinside, habove]
        exact Bool.false_ne_true
    · rename_i hbelow _
      exact .inl ⟨_, rfl, (hinside _).1 hbelow⟩
    · rename_i _ habove
      exact .inl ⟨_, rfl, (hinside _).1 habove⟩
    · rename_i hbelow habove
      split
      · exact .inl ⟨_, rfl, (hinside _).1 hbelow⟩
      · exact .inl ⟨_, rfl, (hinside _).1 habove⟩

theorem between_of_onGrid (hu : 0 < unit) {closed : Bool} {power : Int} {d : Decimal}
    (h : onGrid low value high unit closed power = some d) :
    Between closed (low / unit) (high / unit) d.value := by
  obtain ⟨-, -, -, ⟨d', hd', hbetween⟩ | ⟨hnone, -⟩⟩ :=
    onGrid_spec low value high hu closed power
  · cases h.symm.trans hd'
    exact hbetween
  · cases h.symm.trans hnone

/-- A grid is fine enough if its points are less than twice as far apart as the ends are from the
ratio. -/
theorem onGrid_ne_none (hu : 0 < unit) (closed : Bool) {power : Int}
    (hlow : (10 : ℚ) ^ power < 2 * (value / unit - low / unit))
    (hhigh : (10 : ℚ) ^ power < 2 * (high / unit - value / unit)) :
    onGrid low value high unit closed power ≠ none := by
  obtain ⟨below, hbelow, habove, ⟨d, hd, -⟩ | ⟨-, hnone⟩⟩ :=
    onGrid_spec low value high hu closed power
  · rw [hd]
    exact Option.some_ne_none d
  exfalso
  have hten : (0 : ℚ) < 10 ^ power := by positivity
  have hbetween : ∀ {q : ℚ}, (low : ℚ) / unit < q → q < high / unit →
      Between closed (low / unit) (high / unit) q := by
    intro q hl hr
    rw [Between]
    split
    · exact ⟨hl.le, hr.le⟩
    · exact ⟨hl, hr⟩
  push_cast at habove
  -- the nearer neighbour is half a step away at most
  by_cases hnear : (value : ℚ) / unit - below * 10 ^ power ≤ 10 ^ power / 2
  · exact hnone below (.inl rfl) (hbetween (by linarith) (by linarith))
  · refine hnone (below + 1) (.inr rfl) (hbetween ?_ ?_)
    · push_cast
      linarith
    · push_cast
      linarith

end Grid

theorem log2_quarters {x : Double} (hx : x.Canonical) (hm : 0 < x.mantissa) {up unit : ℕ}
    (hup : (if 0 ≤ x.exponent - 2 then Nat.pow 2 (x.exponent - 2).toNat else 1) = up)
    (hunit : (if 0 ≤ x.exponent - 2 then 1 else Nat.pow 2 (-(x.exponent - 2)).toNat) = unit) :
    -1100 ≤ ((x.basin.value * up).log2 : Int) - unit.log2 ∧
      ((x.basin.value * up).log2 : Int) - unit.log2 ≤ 1100 := by
  have hvalue : x.basin.value < 2 ^ 55 := by
    have hmantissa : x.mantissa < 2 ^ 53 := hx.mantissa
    simp only [basin]
    omega
  have hpositive : x.basin.value ≠ 0 := by
    simp only [basin]
    omega
  have hleast := hx.least
  have hmost := hx.most
  rw [minExponent] at hleast
  rw [maxExponent] at hmost
  split at hup
  · rename_i hexponent
    rw [if_pos hexponent] at hunit
    subst hup hunit
    have hbits : (x.basin.value * 2 ^ (x.exponent - 2).toNat).log2 <
        55 + (x.exponent - 2).toNat := by
      refine (Nat.log2_lt (Nat.mul_ne_zero hpositive (by positivity))).2 ?_
      rw [pow_add]
      exact Nat.mul_lt_mul_of_pos_right hvalue (by positivity)
    have hone : Nat.log2 1 = 0 := by decide
    rw [Nat.pow_eq, hone]
    omega
  · rename_i hexponent
    rw [if_neg hexponent] at hunit
    subst hup hunit
    have hbits : (x.basin.value * 1).log2 < 55 := by
      rw [Nat.mul_one]
      exact (Nat.log2_lt hpositive).2 hvalue
    rw [Nat.pow_eq, Nat.log2_two_pow]
    omega

/-- The shortest decimal number of a double lies in the interval around it. -/
theorem shortest_attracts {x : Double} (hx : x.Canonical) (hm : 0 < x.mantissa) :
    x.Attracts x.shortest.value := by
  obtain ⟨up, unit, hup, hunit, hupEq, hunitEq, hpower⟩ := exists_power two_pos (x.exponent - 2)
  rw [Nat.cast_ofNat] at hpower
  have hratio : ∀ a : ℕ, ((a * up : ℕ) : ℚ) / unit = a * 2 ^ (x.exponent - 2) := by
    intro a
    have hcast : (unit : ℚ) ≠ 0 := by exact_mod_cast hunit.ne'
    rw [div_eq_iff hcast, Nat.cast_mul, hpower, mul_assoc]
  have hpositive : 0 < x.basin.value * up := Nat.mul_pos (by simp only [basin]; omega) hup
  obtain ⟨hbitsLow, hbitsHigh⟩ := log2_quarters hx hm hupEq hunitEq
  have hlead := floorLog10_le hunit 6 (start_le hpositive hunit hbitsLow hbitsHigh)
  rw [hratio, cast_value] at hlead
  rw [shortest]
  simp only [hupEq, hunitEq]
  generalize floorLog10 _ _ _ _ = lead at *
  split
  · rename_i d hd
    obtain ⟨power, -, hgrid⟩ := List.exists_of_findSome?_eq_some hd
    rw [Attracts, ← hratio, ← hratio]
    exact between_of_onGrid hunit hgrid
  · -- the last grid is fine enough
    rename_i hnone
    have hlast : lead - 16 ∈ (List.range 17).map fun (n : ℕ) => lead - (n : Int) :=
      List.mem_map.2 ⟨16, List.mem_range.2 (by norm_num), rfl⟩
    have hquarter : (0 : ℚ) < 2 ^ (x.exponent - 2) := by positivity
    have hmantissa : (x.mantissa : ℚ) < 2 ^ 53 := by exact_mod_cast hx.mantissa
    have hstep : (10 : ℚ) ^ (lead - 16) ≤ 4 * x.mantissa / 10 ^ 16 * 2 ^ (x.exponent - 2) := by
      rw [zpow_sub₀ (by norm_num), div_mul_eq_mul_div]
      gcongr
      norm_num
    refine absurd (List.findSome?_eq_none_iff.1 hnone _ hlast)
      (onGrid_ne_none hunit x.basin.closed ?_ ?_)
    · rw [hratio, hratio, cast_value, cast_low hm, ← sub_mul, sub_sub_cancel, ← mul_assoc]
      refine hstep.trans_lt (mul_lt_mul_of_pos_right ?_ hquarter)
      split
      · rename_i hnarrow
        have hfirst : (x.mantissa : ℚ) = 2 ^ 52 := by exact_mod_cast hnarrow.1
        rw [hfirst]
        norm_num
      · linarith
    · rw [hratio, hratio, cast_value, cast_high, ← sub_mul, add_sub_cancel_left, ← mul_assoc]
      refine hstep.trans_lt (mul_lt_mul_of_pos_right ?_ hquarter)
      linarith

theorem Canonical.eq_zero {x : Double} (hx : x.Canonical) (h : x.isZero) :
    x = zero x.negative := by
  have hmantissa : x.mantissa = 0 := beq_iff_eq.1 h
  have hexponent : x.exponent = minExponent := by
    refine hx.normal.resolve_left fun hnormal => ?_
    rw [hmantissa] at hnormal
    exact absurd hnormal (by decide)
  cases x
  simp only at hmantissa hexponent
  rw [zero, hmantissa, hexponent]

open Numeral (Parts)

/-- The text of a double reads back as the double. -/
theorem Canonical.read?_text {x : Double} (hx : x.Canonical) :
    ∃ n, Numeral.read? x.text.toList = some n ∧ n.toDouble? = some x := by
  obtain ⟨p, hp, hchars, -, -, hsign, hmagnitude⟩ := x.exists_parts
  refine ⟨p.numeral, Numeral.read?_eq_some_iff.2 ⟨p, hp, hchars, rfl⟩, ?_⟩
  have hnegative : decide (p.sign = ['-']) = x.negative := by
    rw [hsign]
    cases x.negative <;> rfl
  have hread : p.numeral.toDouble? = ofDecimal x.negative (Text.number (p.whole ++ p.fraction))
      (p.power - p.fraction.length) := by
    rw [← hnegative]
    rfl
  rw [hread]
  rw [Parts.magnitude, Numeral.scaled] at hmagnitude
  by_cases hzero : x.isZero
  · rw [if_pos hzero] at hmagnitude
    have hnone : Text.number (p.whole ++ p.fraction) = 0 := by
      have hcast := (mul_eq_zero.1 hmagnitude).resolve_right (by positivity)
      exact_mod_cast hcast
    rw [hnone, ofDecimal, if_pos rfl]
    exact congrArg some (hx.eq_zero hzero).symm
  · rw [if_neg hzero] at hmagnitude
    have hm : 0 < x.mantissa := Nat.pos_of_ne_zero (by simpa [isZero] using hzero)
    refine ofDecimal_of_attracts hx hm ?_ x.negative
    rw [hmagnitude]
    exact shortest_attracts hx hm

end Double

/-- A number that was read, in one way or the other, has a text from which the nearest double is the
number again. -/
theorem Numeral.read?_text {n : Numeral} {x : Double}
    (h : n.toDouble? = some x ∨ n.toScaled? = some x) :
    ∃ m, read? x.text.toList = some m ∧ m.toDouble? = some x := by
  rcases h with h | h
  · exact (toDouble?_canonical h).read?_text
  · exact (toScaled?_canonical h).read?_text

/-- A number that was read is accepted as the default of a floating type. Its literal has the digits
of its text, from which the nearest double is the default again. -/
theorem Graph.coerce_floating_nearest [Libraries] (g : Graph) (schema : String)
    {p : ResolvedProperty} {type : Primitive} {token : List Char → ℚ → Prop} {n : Numeral}
    {x : Double} (ht : p.type = .primitive type) (hf : type.Floating token)
    (hread : n.toDouble? = some x ∨ n.toScaled? = some x)
    (hd : p.default = some (.num (.double x))) : ∃ literal m,
      (g.coerce schema p).outcome = .ok (some literal) ∧
        (literal = .double x.text ∨ literal = .float x.text) ∧
        Numeral.read? x.text.toList = some m ∧ m.toDouble? = some x := by
  obtain ⟨m, hm, hx⟩ := Numeral.read?_text hread
  cases hf with
  | double => exact ⟨_, m, (coerce_scalar_iff ht hd).2 (.double .number), .inl rfl, hm, hx⟩
  | float => exact ⟨_, m, (coerce_scalar_iff ht hd).2 (.float .number), .inr rfl, hm, hx⟩

end SchemaModel
