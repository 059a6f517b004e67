import Mathlib.Algebra.Order.Field.Power
import Mathlib.Data.Int.Log
import Mathlib.Data.Rat.Floor
import Mathlib.Tactic.FieldSimp
import Mathlib.Tactic.Linarith
import Mathlib.Tactic.NormNum
import Mathlib.Tactic.Positivity
import Mathlib.Tactic.Ring
import SchemaModel.Decimal.Numeral

/-!
Rounding to doubles. A ratio is rounded to the nearest significand at its exponent
(`Double.ofRatio_eq`). What comes out is a double of binary64, in whatever way a numeral is read
(`Numeral.toDouble?_canonical`, `Numeral.toScaled?_canonical`).
-/

namespace SchemaModel

namespace Double

/-- A whole number as near to a ratio as any, the even one if there are two. -/
structure Nearest (m : ℕ) (y : ℚ) : Prop where
  near : |y - m| ≤ 1 / 2
  tie : |y - m| = 1 / 2 → m % 2 = 0

theorem Nearest.unique {m n : ℕ} {y : ℚ} (hm : Nearest m y) (hn : Nearest n y) : m = n := by
  have hapart : ∀ {a b : ℕ}, Nearest a y → Nearest b y → ¬a < b := by
    intro a b ha hb hlt
    have hstep : (a : ℚ) + 1 ≤ b := by exact_mod_cast hlt
    obtain ⟨-, hhigh⟩ := abs_le.1 ha.near
    obtain ⟨hlow, -⟩ := abs_le.1 hb.near
    -- both are a half away, so both are even
    have hya : y - a = 1 / 2 := by linarith
    have hyb : y - b = -(1 / 2) := by linarith
    have haeven := ha.tie (by rw [hya]; norm_num)
    have hbeven := hb.tie (by rw [hyb]; norm_num)
    have hsucc : (b : ℚ) = a + 1 := by linarith
    have hnext : b = a + 1 := by exact_mod_cast hsucc
    omega
  exact le_antisymm (not_lt.1 (hapart hn hm)) (not_lt.1 (hapart hm hn))

theorem nearest_roundDiv (num : ℕ) {den : ℕ} (hd : 0 < den) :
    Nearest (roundDiv num den) (num / den) := by
  have hden : (0 : ℚ) < den := by exact_mod_cast hd
  have hsplit : (num : ℚ) / den = (num / den : ℕ) + (num % den : ℕ) / den := by
    have hnum : (num : ℚ) = den * (num / den : ℕ) + (num % den : ℕ) := by
      exact_mod_cast (Nat.div_add_mod num den).symm
    rw [eq_comm, ← sub_eq_zero]
    field_simp
    linarith
  have hrest : (0 : ℚ) ≤ (num % den : ℕ) / den := by positivity
  have hbelow : ((num % den : ℕ) : ℚ) / den < 1 := by
    rw [div_lt_one hden]
    exact_mod_cast Nat.mod_lt num hd
  have hhalf : ((num % den : ℕ) : ℚ) / den ≤ 1 / 2 ↔ 2 * (num % den) ≤ den := by
    rw [div_le_div_iff₀ hden two_pos, one_mul, mul_comm]
    exact_mod_cast Iff.rfl
  have htie : ((num % den : ℕ) : ℚ) / den = 1 / 2 ↔ 2 * (num % den) = den := by
    rw [div_eq_div_iff hden.ne' two_ne_zero, one_mul, mul_comm]
    exact_mod_cast Iff.rfl
  rw [hsplit, roundDiv]
  generalize ((num % den : ℕ) : ℚ) / den = rest at *
  generalize num / den = whole at *
  simp only [gt_iff_lt, Bool.or_eq_true, decide_eq_true_eq, Bool.and_eq_true, beq_iff_eq]
  split
  · rename_i hup
    have hmost : 1 / 2 ≤ rest := by
      rcases hup with hup | ⟨hup, -⟩
      · exact (not_le.1 (mt hhalf.1 (not_le.2 hup))).le
      · exact (htie.2 hup).ge
    have habs : |(whole : ℚ) + rest - (whole + 1 : ℕ)| = 1 - rest := by
      rw [abs_of_nonpos (by push_cast; linarith)]
      push_cast
      ring
    refine ⟨by rw [habs]; linarith, fun h => ?_⟩
    rw [habs] at h
    have heq := htie.1 (by linarith)
    rcases hup with hup | ⟨-, hodd⟩
    · omega
    · omega
  · rename_i hdown
    have hleast : 2 * (num % den) ≤ den := by omega
    have habs : |(whole : ℚ) + rest - whole| = rest := by
      rw [add_sub_cancel_left, abs_of_nonneg hrest]
    refine ⟨by rw [habs]; exact hhalf.2 hleast, fun h => ?_⟩
    rw [habs] at h
    have heq := htie.1 h
    omega

theorem roundDiv_eq {num den m : ℕ} (hd : 0 < den) (h : Nearest m (num / den)) :
    roundDiv num den = m :=
  (nearest_roundDiv num hd).unique h

/-- A power is at most a ratio if it is once both are made whole. -/
theorem zpow_le_div_iff {base den : ℕ} (hb : 0 < base) (num : ℕ) (hd : 0 < den) (k : Int) :
    (base : ℚ) ^ k ≤ num / den ↔ if 0 ≤ k then den * Nat.pow base k.toNat ≤ num
      else den ≤ num * Nat.pow base (-k).toNat := by
  have hden : (0 : ℚ) < den := by exact_mod_cast hd
  have hbase : (0 : ℚ) < base := by exact_mod_cast hb
  rw [le_div_iff₀ hden]
  split
  · rename_i hk
    rw [← Int.toNat_of_nonneg hk, zpow_natCast, Int.toNat_natCast, mul_comm]
    exact_mod_cast Iff.rfl
  · rename_i hk
    have hpower : (base : ℚ) ^ k = ((base : ℚ) ^ (-k).toNat)⁻¹ := by
      rw [← zpow_natCast, Int.toNat_of_nonneg (by omega), zpow_neg, inv_inv]
    rw [hpower, inv_mul_le_iff₀ (by positivity), mul_comm]
    exact_mod_cast Iff.rfl

theorem log_eq {q : ℚ} {k : Int} (hlow : (2 : ℚ) ^ k ≤ q) (hhigh : q < 2 ^ (k + 1)) :
    Int.log 2 q = k := by
  have hq : 0 < q := lt_of_lt_of_le (by positivity) hlow
  have hlast := (Int.zpow_le_iff_le_log (b := 2) (by norm_num) hq).1 (by exact_mod_cast hlow)
  have hnext := (Int.lt_zpow_iff_log_lt (b := 2) (by norm_num) hq).1 (by exact_mod_cast hhigh)
  omega

/-- The bits of a ratio, from those of its parts. -/
theorem zpow_log2_le_div {num den : ℕ} (hn : 0 < num) (hd : 0 < den) :
    (2 : ℚ) ^ ((num.log2 : Int) - den.log2 - 1) ≤ num / den := by
  have hden : (0 : ℚ) < den := by exact_mod_cast hd
  have hnum : (2 : ℚ) ^ num.log2 ≤ num := by exact_mod_cast Nat.log2_self_le hn.ne'
  have hmost : (den : ℚ) < 2 ^ (den.log2 + 1) := by exact_mod_cast Nat.lt_log2_self
  rw [le_div_iff₀ hden]
  calc (2 : ℚ) ^ ((num.log2 : Int) - den.log2 - 1) * den
      ≤ 2 ^ ((num.log2 : Int) - den.log2 - 1) * 2 ^ ((den.log2 : Int) + 1) := by
        gcongr
        exact_mod_cast hmost.le
    _ = 2 ^ num.log2 := by
        rw [← zpow_add₀ two_ne_zero, ← zpow_natCast]
        congr 1
        ring
    _ ≤ num := hnum

theorem div_lt_zpow_log2 (num : ℕ) {den : ℕ} (hd : 0 < den) :
    (num : ℚ) / den < 2 ^ ((num.log2 : Int) - den.log2 + 1) := by
  have hden : (0 : ℚ) < den := by exact_mod_cast hd
  have hnum : (num : ℚ) < 2 ^ (num.log2 + 1) := by exact_mod_cast Nat.lt_log2_self
  have hleast : (2 : ℚ) ^ den.log2 ≤ den := by exact_mod_cast Nat.log2_self_le hd.ne'
  rw [div_lt_iff₀ hden]
  calc (num : ℚ) < 2 ^ (num.log2 + 1) := hnum
    _ = 2 ^ ((num.log2 : Int) - den.log2 + 1) * 2 ^ (den.log2 : Int) := by
        rw [← zpow_add₀ two_ne_zero, ← zpow_natCast]
        congr 1
        push_cast
        ring
    _ ≤ 2 ^ ((num.log2 : Int) - den.log2 + 1) * den := by
        gcongr
        exact_mod_cast hleast

theorem floorLog2_eq_log {num den : ℕ} (hn : 0 < num) (hd : 0 < den) :
    floorLog2 num den = Int.log 2 ((num : ℚ) / den) := by
  have hreached := zpow_le_div_iff two_pos num hd ((num.log2 : Int) - den.log2)
  rw [floorLog2]
  simp only [← hreached]
  split
  · rename_i hle
    exact (log_eq hle (div_lt_zpow_log2 num hd)).symm
  · rename_i hlt
    exact (log_eq (zpow_log2_le_div hn hd) (by simpa using hlt)).symm

/-- The exponent of the doubles that are near a ratio. -/
def exponentFor (q : ℚ) : Int := max (Int.log 2 q - 52) minExponent

/-- A significand of one more bit is halved, and one that is too large is none. -/
def settle (negative : Bool) (m : ℕ) (exponent : Int) : Option Double :=
  let carried := m == Nat.pow 2 precision
  let exponent := if carried then exponent + 1 else exponent
  if exponent > maxExponent then none
  else some ⟨negative, if carried then Nat.pow 2 (precision - 1) else m, exponent⟩

theorem settle_carried (negative : Bool) {exponent : Int} (h : exponent + 1 ≤ maxExponent) :
    settle negative (2 ^ precision) exponent =
      some ⟨negative, 2 ^ (precision - 1), exponent + 1⟩ := by
  have hcarried : (2 ^ precision == Nat.pow 2 precision) = true := by decide
  simp only [settle, hcarried, if_true, gt_iff_lt, not_lt.2 h, if_false]
  rfl

theorem settle_of_lt (negative : Bool) {m : ℕ} {exponent : Int} (hm : m < 2 ^ precision)
    (h : exponent ≤ maxExponent) : settle negative m exponent = some ⟨negative, m, exponent⟩ := by
  have hkept : (m == Nat.pow 2 precision) = false := beq_eq_false_iff_ne.2 hm.ne
  simp only [settle, hkept, Bool.false_eq_true, if_false, gt_iff_lt, not_lt.2 h]

/-- The ratios whose nearest significand has as many bits as it may. -/
theorem exponentFor_eq {q : ℚ} {exponent : Int} (hleast : minExponent ≤ exponent)
    (hlow : 2 ^ (exponent + 52) ≤ q) (hhigh : q < 2 ^ (exponent + 53)) :
    exponentFor q = exponent := by
  rw [exponentFor, log_eq hlow (by rwa [add_assoc])]
  omega

theorem exponentFor_least {q : ℚ} (hq : 0 < q) (h : q < 2 ^ (minExponent + 53)) :
    exponentFor q = minExponent := by
  have hlog := (Int.lt_zpow_iff_log_lt (b := 2) (by norm_num) hq).1 (by exact_mod_cast h)
  rw [exponentFor]
  omega

/-- The ratio is scaled by a power of two on the side where that is a whole number. -/
theorem roundDiv_scaled {num den m : ℕ} (hd : 0 < den) (shift : Int)
    (hm : Nearest m (num / den * 2 ^ shift)) :
    (if 0 ≤ shift then roundDiv (num * Nat.pow 2 shift.toNat) den
      else roundDiv num (den * Nat.pow 2 (-shift).toNat)) = m := by
  split
  · rename_i hshift
    have hpower : (2 : ℚ) ^ shift = 2 ^ shift.toNat := by
      rw [← zpow_natCast, Int.toNat_of_nonneg hshift]
    refine roundDiv_eq hd ?_
    rwa [Nat.pow_eq, Nat.cast_mul, Nat.cast_pow, Nat.cast_ofNat, mul_div_right_comm, ← hpower]
  · rename_i hshift
    have hpower : (2 : ℚ) ^ shift = (2 ^ (-shift).toNat)⁻¹ := by
      rw [← zpow_natCast, Int.toNat_of_nonneg (by omega), zpow_neg, inv_inv]
    refine roundDiv_eq (Nat.mul_pos hd (Nat.pow_pos two_pos)) ?_
    rwa [Nat.pow_eq, Nat.cast_mul, Nat.cast_pow, Nat.cast_ofNat, div_mul_eq_div_div,
      div_eq_mul_inv _ (2 ^ _ : ℚ), ← hpower]

/-- A ratio is rounded to the nearest significand at its exponent. -/
theorem ofRatio_eq {negative : Bool} {num den m : ℕ} {scale : Int} (hn : 0 < num) (hd : 0 < den)
    {q : ℚ} (hq : q = num / den * 2 ^ scale) (hm : Nearest m (q / 2 ^ exponentFor q)) :
    ofRatio negative num den scale = settle negative m (exponentFor q) := by
  have hratio : (0 : ℚ) < num / den := by
    have hnum : (0 : ℚ) < num := by exact_mod_cast hn
    have hden : (0 : ℚ) < den := by exact_mod_cast hd
    positivity
  have hlog : Int.log 2 ((num : ℚ) / den) + scale = Int.log 2 q := by
    have hlow := Int.zpow_log_le_self (b := 2) (by norm_num) hratio
    have hhigh := Int.lt_zpow_succ_log_self (b := 2) (by norm_num) ((num : ℚ) / den)
    push_cast at hlow hhigh
    refine (log_eq ?_ ?_).symm
    · rw [hq, zpow_add₀ two_ne_zero]
      gcongr
    · rw [hq, add_right_comm, zpow_add₀ two_ne_zero _ scale]
      gcongr
  have hexponent : max (floorLog2 num den + scale - 52) minExponent = exponentFor q := by
    rw [floorLog2_eq_log hn hd, hlog, exponentFor]
  have hscaled : q / 2 ^ exponentFor q = num / den * 2 ^ (scale - exponentFor q) := by
    rw [zpow_sub₀ two_ne_zero, ← mul_div_assoc, ← hq]
  rw [hscaled] at hm
  rw [ofRatio, if_neg hn.ne', hexponent]
  simp only [roundDiv_scaled hd _ hm]
  rfl

/-- A double of binary64: a significand of 53 bits, or fewer at the least exponent. -/
structure Canonical (x : Double) : Prop where
  mantissa : x.mantissa < 2 ^ precision
  least : minExponent ≤ x.exponent
  most : x.exponent ≤ maxExponent
  normal : 2 ^ (precision - 1) ≤ x.mantissa ∨ x.exponent = minExponent

variable {x : Double} {q : ℚ}

theorem exists_nearest {y : ℚ} (hy : 0 ≤ y) : ∃ m, Nearest m y := by
  have hnum : (y.num.toNat : ℚ) / y.den = y := by
    have hcast : ((y.num.toNat : Int) : ℚ) = y.num := by
      rw [Int.toNat_of_nonneg (Rat.num_nonneg.2 hy)]
    rw [← Int.cast_natCast, hcast, Rat.num_div_den]
  refine ⟨roundDiv y.num.toNat y.den, ?_⟩
  have hnearest := nearest_roundDiv y.num.toNat y.den_pos
  rwa [hnum] at hnearest

/-- Scaled by its exponent, a ratio has no more bits than a significand, and fewer only at the least
exponent. -/
theorem scaled_lt (q : ℚ) : q / 2 ^ exponentFor q < 2 ^ 53 := by
  have hhigh := Int.lt_zpow_succ_log_self (b := 2) (by norm_num) q
  push_cast at hhigh
  rw [div_lt_iff₀ (by positivity), ← zpow_natCast, ← zpow_add₀ two_ne_zero]
  refine hhigh.trans_le (zpow_le_zpow_right₀ one_le_two ?_)
  rw [exponentFor]
  push_cast
  omega

theorem le_scaled (hq : 0 < q) (h : exponentFor q ≠ minExponent) :
    2 ^ 52 ≤ q / 2 ^ exponentFor q := by
  have hlow := Int.zpow_log_le_self (b := 2) (by norm_num) hq
  push_cast at hlow
  rw [le_div_iff₀ (by positivity), ← zpow_natCast, ← zpow_add₀ two_ne_zero]
  refine le_trans (zpow_le_zpow_right₀ one_le_two ?_) hlow
  rw [exponentFor] at h ⊢
  push_cast
  omega

theorem canonical_zero (negative : Bool) : (zero negative).Canonical :=
  ⟨by simp [zero, precision], by simp [zero], by simp [zero, minExponent, maxExponent], .inr rfl⟩

theorem ratio_pos {num den : ℕ} (hn : 0 < num) (hd : 0 < den) (scale : Int) :
    (0 : ℚ) < num / den * 2 ^ scale := by
  have hnum : (0 : ℚ) < num := by exact_mod_cast hn
  have hden : (0 : ℚ) < den := by exact_mod_cast hd
  positivity

theorem exists_settle {negative : Bool} {num den : ℕ} {scale : Int} (hn : 0 < num) (hd : 0 < den)
    (h : ofRatio negative num den scale = some x) {q : ℚ} (hq : q = num / den * 2 ^ scale) :
    ∃ m, Nearest m (q / 2 ^ exponentFor q) ∧ settle negative m (exponentFor q) = some x := by
  have hpos : 0 < q := hq ▸ ratio_pos hn hd scale
  obtain ⟨m, hm⟩ := exists_nearest (div_nonneg hpos.le (zpow_nonneg zero_le_two _))
  exact ⟨m, hm, by rw [← h, ofRatio_eq hn hd hq hm]⟩

/-- Whatever is rounded to is a double. -/
theorem ofRatio_canonical {negative : Bool} {num den : ℕ} {scale : Int} (hd : 0 < den)
    (h : ofRatio negative num den scale = some x) : x.Canonical := by
  rcases Nat.eq_zero_or_pos num with rfl | hn
  · rw [ofRatio, if_pos rfl, Option.some.injEq] at h
    rw [← h]
    exact canonical_zero negative
  have hq := ratio_pos hn hd scale
  obtain ⟨m, hm, h⟩ := exists_settle hn hd h rfl
  have hmost := scaled_lt (num / den * 2 ^ scale)
  have hleast := le_scaled hq
  have hminimum : minExponent ≤ exponentFor (num / den * 2 ^ scale) := le_max_right _ _
  generalize exponentFor (num / den * 2 ^ scale) = exponent at *
  obtain ⟨hlow, hhigh⟩ := abs_le.1 hm.near
  have hbound : m ≤ 2 ^ precision := by
    have hcast : (m : ℚ) < (2 ^ precision + 1 : ℕ) := by
      push_cast [precision]
      linarith
    exact Nat.lt_succ_iff.1 (by exact_mod_cast hcast)
  simp only [settle, gt_iff_lt, Option.ite_none_left_eq_some, Option.some.injEq, not_lt] at h
  obtain ⟨hsmall, rfl⟩ := h
  -- a carry gives the least significand of the next exponent
  by_cases hcarried : m == Nat.pow 2 precision
  · simp only [hcarried, if_true] at hsmall ⊢
    have hfirst : Nat.pow 2 (precision - 1) < 2 ^ precision := by decide
    have hnext : minExponent ≤ exponent + 1 := by omega
    exact ⟨hfirst, hnext, hsmall, .inl le_rfl⟩
  · have hlt : m < 2 ^ precision := lt_of_le_of_ne hbound (by simpa using hcarried)
    rw [Bool.not_eq_true] at hcarried
    simp only [hcarried, Bool.false_eq_true, if_false] at hsmall ⊢
    refine ⟨hlt, hminimum, hsmall, or_iff_not_imp_right.2 fun hne => ?_⟩
    have hcast : ((2 ^ (precision - 1) : ℕ) : ℚ) < (m + 1 : ℕ) := by
      have hnormal := hleast hne
      push_cast [precision]
      linarith
    exact Nat.lt_succ_iff.1 (by exact_mod_cast hcast)

theorem ofDecimal_canonical {negative : Bool} {digits : ℕ} {power : Int}
    (h : ofDecimal negative digits power = some x) : x.Canonical := by
  have hzero : some (zero negative) = some x → x.Canonical := by
    rintro ⟨⟩
    exact canonical_zero negative
  rw [ofDecimal] at h
  split at h
  · exact hzero h
  split at h
  · split at h
    · cases h
    · exact ofRatio_canonical one_pos h
  · split at h
    · exact hzero h
    · exact ofRatio_canonical (Nat.pow_pos (by norm_num)) h

/-- A ratio that is not below one is not rounded to zero. -/
theorem ofRatio_mantissa_pos {negative : Bool} {num den : ℕ} {scale : Int} (hd : 0 < den)
    (hone : 1 ≤ (num : ℚ) / den * 2 ^ scale) (h : ofRatio negative num den scale = some x) :
    0 < x.mantissa := by
  have hn : 0 < num := by
    rw [Nat.pos_iff_ne_zero]
    rintro rfl
    norm_num at hone
  obtain ⟨m, -, hsettle⟩ := exists_settle hn hd h rfl
  have hexponent : exponentFor (num / den * 2 ^ scale) ≤ x.exponent := by
    simp only [settle, Option.ite_none_left_eq_some, Option.some.injEq] at hsettle
    rw [← hsettle.2]
    dsimp only
    split <;> omega
  have hlog : 0 ≤ Int.log 2 ((num : ℚ) / den * 2 ^ scale) := by
    refine (Int.zpow_le_iff_le_log (b := 2) (by norm_num) (ratio_pos hn hd scale)).1 ?_
    rwa [zpow_zero]
  have hnormal := (ofRatio_canonical hd h).normal.resolve_right fun hleast => by
    rw [exponentFor] at hexponent
    rw [hleast, minExponent] at hexponent
    omega
  exact lt_of_lt_of_le (by decide) hnormal

theorem mul_canonical {y z : Double} (h : x.mul y = some z) : z.Canonical :=
  ofRatio_canonical one_pos h

theorem div_canonical {y z : Double} (hy : 0 < y.mantissa) (h : x.div y = some z) : z.Canonical :=
  ofRatio_canonical hy h

theorem ofDecimal_one_mantissa_pos {negative : Bool} {power : ℕ}
    (h : ofDecimal negative 1 power = some x) : 0 < x.mantissa := by
  rw [ofDecimal, if_neg one_ne_zero, if_pos (Int.natCast_nonneg power)] at h
  split at h
  · cases h
  · refine ofRatio_mantissa_pos one_pos ?_ h
    rw [Nat.cast_one, div_one, zpow_zero, mul_one, one_mul, Int.toNat_natCast]
    exact_mod_cast Nat.one_le_pow power 10 (by norm_num)

end Double

namespace Numeral

variable {x y : Double}

theorem scaleDown_canonical {power : ℕ} (hx : x.Canonical) (h : scaleDown x power = some y) :
    y.Canonical := by
  induction power using Nat.strongRecOn generalizing x with
  | ind power ih =>
    rw [scaleDown] at h
    split at h
    · obtain ⟨ten, hten, h⟩ := Option.bind_eq_some_iff.1 h
      exact Double.div_canonical (Double.ofDecimal_one_mantissa_pos hten) h
    split at h
    · cases h
      exact hx
    · rename_i hpower _
      obtain ⟨z, hz, h⟩ := Option.bind_eq_some_iff.1 h
      obtain ⟨ten, hten, hz⟩ := Option.bind_eq_some_iff.1 hz
      have hten' : Double.ofDecimal false 1 (308 : ℕ) = some ten := hten
      exact ih _ (by omega) (Double.div_canonical (Double.ofDecimal_one_mantissa_pos hten') hz) h

theorem scale_canonical {power : Int} (hx : x.Canonical) (h : scale x power = some y) :
    y.Canonical := by
  rw [scale] at h
  split at h
  · exact scaleDown_canonical hx h
  split at h
  · obtain ⟨ten, -, h⟩ := Option.bind_eq_some_iff.1 h
    exact Double.mul_canonical h
  split at h
  · cases h
    exact hx
  · cases h

theorem toDouble?_canonical {n : Numeral} (h : n.toDouble? = some x) : x.Canonical :=
  Double.ofDecimal_canonical h

theorem toScaled?_canonical {n : Numeral} (h : n.toScaled? = some x) : x.Canonical := by
  rw [toScaled?] at h
  generalize n.significand = significand at h
  obtain ⟨digits, power⟩ := significand
  dsimp only at h
  split at h
  · split at h
    · cases h
      exact Double.canonical_zero _
    · cases h
  · obtain ⟨y, hy, rfl⟩ := Option.map_eq_some_iff.1 h
    obtain ⟨z, hz, hy⟩ := Option.bind_eq_some_iff.1 hy
    obtain ⟨hmantissa, hleast, hmost, hnormal⟩ :=
      scale_canonical (Double.ofRatio_canonical one_pos hz) hy
    exact ⟨hmantissa, hleast, hmost, hnormal⟩

end Numeral

end SchemaModel
