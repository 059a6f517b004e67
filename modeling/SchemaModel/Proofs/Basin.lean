import SchemaModel.Decimal.Shortest
import SchemaModel.Proofs.Rounding

/-!
The interval around a double, in which its shortest decimal number is sought. The ratios in it are
rounded to the double (`Double.ofRatio_of_attracts`), and the decimal numbers in it are read as the
double (`Double.ofDecimal_of_attracts`).
-/

namespace SchemaModel

namespace Double

/-- A ratio in an interval, to which the ends may belong. -/
def Between (closed : Bool) (low high q : ℚ) : Prop :=
  if closed then low ≤ q ∧ q ≤ high else low < q ∧ q < high

/-- The ratio lies in the interval around the double. -/
def Attracts (x : Double) (q : ℚ) : Prop :=
  Between x.basin.closed (x.basin.low * 2 ^ (x.exponent - 2))
    (x.basin.high * 2 ^ (x.exponent - 2)) q

/-- The double below is nearer than the one above. -/
def Narrow (x : Double) : Prop := x.mantissa = 2 ^ (precision - 1) ∧ minExponent < x.exponent

variable {x : Double} {q : ℚ}

instance : Decidable x.Narrow := inferInstanceAs (Decidable (_ ∧ _))

theorem cast_low (hm : 0 < x.mantissa) :
    (x.basin.low : ℚ) = 4 * x.mantissa - (if x.Narrow then 1 else 2) := by
  have hlow : x.basin.low = 4 * x.mantissa - (if x.Narrow then 1 else 2) := by
    simp [basin, Narrow]
    rfl
  rw [hlow, Nat.cast_sub (by split <;> omega)]
  push_cast
  rfl

theorem cast_value : (x.basin.value : ℚ) = 4 * x.mantissa := by
  rw [basin]
  push_cast
  rfl

theorem cast_high : (x.basin.high : ℚ) = 4 * x.mantissa + 2 := by
  rw [basin]
  push_cast
  rfl

/-- The interval in quarters of the last place. -/
theorem Attracts.exists_quarters (hm : 0 < x.mantissa) (h : x.Attracts q) :
    ∃ t : ℚ, q = t * 2 ^ (x.exponent - 2) ∧
      4 * x.mantissa - 2 ≤ t ∧ t ≤ 4 * x.mantissa + 2 ∧ (x.Narrow → 4 * x.mantissa - 1 ≤ t) ∧
      (t = 4 * x.mantissa - 2 ∨ t = 4 * x.mantissa + 2 → x.mantissa % 2 = 0) := by
  have hunit : (0 : ℚ) < 2 ^ (x.exponent - 2) := by positivity
  have hlow : (4 * x.mantissa : ℚ) - 2 ≤ x.basin.low ∧
      (x.Narrow → (4 * x.mantissa : ℚ) - 1 = x.basin.low) := by
    rw [cast_low hm]
    split
    · exact ⟨by linarith, fun _ => rfl⟩
    · rename_i hwide
      exact ⟨le_refl _, fun hnarrow => absurd hnarrow hwide⟩
  have hclosed : x.basin.closed = (x.mantissa % 2 == 0) := rfl
  refine ⟨q / 2 ^ (x.exponent - 2), (div_mul_cancel₀ _ hunit.ne').symm, ?_⟩
  rw [Attracts, Between, hclosed, cast_high] at h
  split at h
  · rename_i heven
    obtain ⟨hl, hr⟩ := h
    rw [← le_div_iff₀ hunit] at hl
    rw [← div_le_iff₀ hunit] at hr
    exact ⟨hlow.1.trans hl, hr, fun hnarrow => (hlow.2 hnarrow).le.trans hl,
      fun _ => by simpa using heven⟩
  · obtain ⟨hl, hr⟩ := h
    rw [← lt_div_iff₀ hunit] at hl
    rw [← div_lt_iff₀ hunit] at hr
    refine ⟨hlow.1.trans hl.le, hr.le, fun hnarrow => (hlow.2 hnarrow).le.trans hl.le, ?_⟩
    rintro (heq | heq)
    · exact absurd (hlow.1.trans_lt hl) (by rw [heq]; exact lt_irrefl _)
    · exact absurd hr (by rw [heq]; exact lt_irrefl _)

theorem zpow_quarters (exponent : Int) (n : ℕ) :
    (2 : ℚ) ^ (exponent - 2 + n) = 2 ^ n * 2 ^ (exponent - 2) := by
  rw [zpow_add₀ two_ne_zero, zpow_natCast, mul_comm]

/-- Near the end below, the significand has one bit more at the exponent below, unless that is
too small. -/
theorem ofRatio_of_below (hx : x.Canonical) (hnarrow : x.Narrow) {num den : ℕ} {scale : Int}
    (hn : 0 < num) (hd : 0 < den) {t : ℚ} (ht : num / den * 2 ^ scale = t * 2 ^ (x.exponent - 2))
    (hlow : 4 * x.mantissa - 1 ≤ t) (hhigh : t < 4 * x.mantissa) (negative : Bool) :
    ofRatio negative num den scale = some { x with negative := negative } := by
  obtain ⟨hsignificand, hleast⟩ := hnarrow
  have hmantissa : (x.mantissa : ℚ) = 2 ^ 52 := by exact_mod_cast hsignificand
  have hunit : (0 : ℚ) < 2 ^ (x.exponent - 2) := by positivity
  have hexponent : exponentFor (t * 2 ^ (x.exponent - 2)) = x.exponent - 1 := by
    refine exponentFor_eq (by omega) ?_ ?_
    · rw [show x.exponent - 1 + 52 = x.exponent - 2 + (53 : ℕ) by omega, zpow_quarters]
      gcongr
      linarith
    · rw [show x.exponent - 1 + 53 = x.exponent - 2 + (54 : ℕ) by omega, zpow_quarters]
      gcongr
      linarith
  have hhalf : t * 2 ^ (x.exponent - 2) / 2 ^ (x.exponent - 1) = t / 2 := by
    rw [show x.exponent - 1 = x.exponent - 2 + (1 : ℕ) by omega, zpow_quarters, pow_one,
      mul_div_mul_right _ _ hunit.ne']
  have hnearest : Nearest (2 ^ precision) (t / 2) := by
    have hpower : ((2 ^ precision : ℕ) : ℚ) = 2 ^ 53 := by norm_num [precision]
    refine ⟨?_, fun _ => by simp [precision]⟩
    rw [hpower, abs_le]
    constructor <;> linarith
  rw [ofRatio_eq hn hd ht.symm (by rwa [hexponent, hhalf]), hexponent,
    settle_carried negative (by have := hx.most; omega), ← hsignificand, Int.sub_add_cancel]

/-- A ratio in the interval around a double is rounded to it. -/
theorem ofRatio_of_attracts (hx : x.Canonical) (hm : 0 < x.mantissa) {num den : ℕ} {scale : Int}
    (hd : 0 < den) (h : x.Attracts (num / den * 2 ^ scale)) (negative : Bool) :
    ofRatio negative num den scale = some { x with negative := negative } := by
  obtain ⟨t, ht, hlow, hhigh, hnarrow, htie⟩ := h.exists_quarters hm
  have hmantissa : (1 : ℚ) ≤ x.mantissa := by exact_mod_cast hm
  have hbound : (x.mantissa : ℚ) + 1 ≤ 2 ^ 53 := by exact_mod_cast hx.mantissa
  have hunit : (0 : ℚ) < 2 ^ (x.exponent - 2) := by positivity
  have hq : 0 < t * 2 ^ (x.exponent - 2) := mul_pos (by linarith) hunit
  have hn : 0 < num := by
    rw [Nat.pos_iff_ne_zero]
    rintro rfl
    rw [← ht] at hq
    simp at hq
  by_cases hbelow : x.Narrow ∧ t < 4 * x.mantissa
  · exact ofRatio_of_below hx hbelow.1 hn hd ht (hnarrow hbelow.1) hbelow.2 negative
  have hexponent : exponentFor (t * 2 ^ (x.exponent - 2)) = x.exponent := by
    have hnext : t * 2 ^ (x.exponent - 2) < 2 ^ (x.exponent + 53) := by
      rw [show x.exponent + 53 = x.exponent - 2 + (55 : ℕ) by omega, zpow_quarters]
      gcongr
      linarith
    by_cases hleast : x.exponent = minExponent
    · rw [hleast] at hq hnext ⊢
      exact exponentFor_least hq hnext
    · refine exponentFor_eq hx.least ?_ hnext
      rw [show x.exponent + 52 = x.exponent - 2 + (54 : ℕ) by omega, zpow_quarters]
      gcongr
      have hnormal := hx.normal.resolve_right hleast
      by_cases hfirst : x.mantissa = 2 ^ (precision - 1)
      · have hx' : x.Narrow := ⟨hfirst, lt_of_le_of_ne hx.least (Ne.symm hleast)⟩
        have hvalue : (x.mantissa : ℚ) = 2 ^ 52 := by exact_mod_cast hfirst
        have hmost := not_lt.1 fun hlt => hbelow ⟨hx', hlt⟩
        linarith
      · have hvalue : (2 : ℚ) ^ 52 + 1 ≤ x.mantissa := by
          exact_mod_cast lt_of_le_of_ne hnormal (Ne.symm hfirst)
        linarith
  have hquarter : t * 2 ^ (x.exponent - 2) / 2 ^ x.exponent = t / 4 := by
    have hfour : (2 : ℚ) ^ x.exponent = 2 ^ 2 * 2 ^ (x.exponent - 2) := by
      rw [← zpow_quarters, Nat.cast_ofNat, sub_add_cancel]
    rw [hfour, mul_div_mul_right _ _ hunit.ne']
    norm_num
  have hnearest : Nearest x.mantissa (t / 4) := by
    refine ⟨abs_le.2 ⟨by linarith, by linarith⟩, fun htied => htie ?_⟩
    rcases (abs_eq (by norm_num)).1 htied with h | h
    · exact .inr (by linarith)
    · exact .inl (by linarith)
  rw [ofRatio_eq hn hd ht.symm (by rwa [hexponent, hquarter]), hexponent,
    settle_of_lt negative hx.mantissa hx.most]

/-- What is near a double is neither too large nor too small for one. -/
theorem Attracts.bounds (hx : x.Canonical) (hm : 0 < x.mantissa) (h : x.Attracts q) :
    2 ^ (-1075 : Int) ≤ q ∧ q < 2 ^ (1024 : Int) := by
  obtain ⟨t, rfl, hlow, hhigh, -⟩ := h.exists_quarters hm
  have hmantissa : (1 : ℚ) ≤ x.mantissa := by exact_mod_cast hm
  have hbound : (x.mantissa : ℚ) + 1 ≤ 2 ^ 53 := by exact_mod_cast hx.mantissa
  have hleast := hx.least
  have hmost := hx.most
  rw [minExponent] at hleast
  rw [maxExponent] at hmost
  constructor
  · calc (2 : ℚ) ^ (-1075 : Int) ≤ 2 ^ (x.exponent - 2 + (1 : ℕ)) :=
          zpow_le_zpow_right₀ one_le_two (by omega)
      _ = 2 * 2 ^ (x.exponent - 2) := by rw [zpow_quarters, pow_one]
      _ ≤ t * 2 ^ (x.exponent - 2) := by
          gcongr
          linarith
  · calc t * (2 : ℚ) ^ (x.exponent - 2) < 2 ^ 55 * 2 ^ (x.exponent - 2) := by
          gcongr
          linarith
      _ = 2 ^ (x.exponent - 2 + (55 : ℕ)) := (zpow_quarters x.exponent 55).symm
      _ ≤ 2 ^ (1024 : Int) := zpow_le_zpow_right₀ one_le_two (by omega)

theorem zpow_le_zpow_of_neg {a b : ℚ} (ha : 0 < a) (h : a ≤ b) {k : Int} (hk : k < 0) :
    b ^ k ≤ a ^ k := by
  have hinverse : ∀ c : ℚ, c ^ k = (c ^ (-k))⁻¹ := fun c => by rw [zpow_neg, inv_inv]
  rw [hinverse, hinverse a]
  exact inv_anti₀ (zpow_pos ha _) (zpow_le_zpow_left₀ (by omega) ha.le h)

/-- A decimal number in the interval around a double is read as the double. -/
theorem ofDecimal_of_attracts (hx : x.Canonical) (hm : 0 < x.mantissa) {digits : ℕ} {power : Int}
    (h : x.Attracts (digits * 10 ^ power)) (negative : Bool) :
    ofDecimal negative digits power = some { x with negative := negative } := by
  obtain ⟨hleast, hmost⟩ := h.bounds hx hm
  have hten : (0 : ℚ) < 10 ^ power := by positivity
  have hdigits : digits ≠ 0 := by
    rintro rfl
    rw [Nat.cast_zero, zero_mul] at hleast
    exact absurd hleast (not_le.2 (by positivity))
  rw [ofDecimal, if_neg hdigits]
  split
  · rename_i hpower
    have hcast : (10 : ℚ) ^ power = 10 ^ power.toNat := by
      rw [← zpow_natCast, Int.toNat_of_nonneg hpower]
    have hsmall : ¬power > 310 := by
      intro hlarge
      have hone : (1 : ℚ) ≤ digits := by exact_mod_cast Nat.one_le_iff_ne_zero.2 hdigits
      have htoo : (2 : ℚ) ^ (1024 : Int) ≤ 10 ^ power := by
        have hpowers : (2 : ℕ) ^ 1024 ≤ 10 ^ 311 := by decide +kernel
        refine le_trans ?_ (zpow_le_zpow_right₀ (by norm_num) (show (311 : Int) ≤ power by omega))
        exact_mod_cast hpowers
      have hfactor := le_mul_of_one_le_left hten.le hone
      linarith
    rw [if_neg hsmall]
    refine ofRatio_of_attracts hx hm one_pos ?_ negative
    rwa [Nat.cast_one, div_one, zpow_zero, mul_one, Nat.pow_eq, Nat.cast_mul, Nat.cast_pow,
      Nat.cast_ofNat, ← hcast]
  · rename_i hpower
    have hcast : (10 : ℚ) ^ power = (10 ^ (-power).toNat)⁻¹ := by
      rw [← zpow_natCast, Int.toNat_of_nonneg (by omega), zpow_neg, inv_inv]
    have hlarge : ¬power < -((400 : Int) + digits.log2) := by
      intro hsmall
      have hbits : (digits : ℚ) < 2 ^ ((digits.log2 : Int) + 1) := by
        exact_mod_cast Nat.lt_log2_self
      have hpowers : (10 : ℚ) ^ power ≤ 2 ^ (3 * power) := by
        rw [zpow_mul]
        exact zpow_le_zpow_of_neg (by positivity) (by norm_num) (by omega)
      have htoo : (digits : ℚ) * 10 ^ power < 2 ^ (-1075 : Int) := by
        calc (digits : ℚ) * 10 ^ power < 2 ^ ((digits.log2 : Int) + 1) * 10 ^ power := by gcongr
          _ ≤ 2 ^ ((digits.log2 : Int) + 1) * 2 ^ (3 * power) := by gcongr
          _ = 2 ^ ((digits.log2 : Int) + 1 + 3 * power) := by rw [← zpow_add₀ two_ne_zero]
          _ ≤ 2 ^ (-1075 : Int) := zpow_le_zpow_right₀ one_le_two (by omega)
      exact absurd hleast (not_le.2 htoo)
    rw [if_neg hlarge]
    refine ofRatio_of_attracts hx hm (Nat.pow_pos (by norm_num)) ?_ negative
    rwa [zpow_zero, mul_one, Nat.cast_pow, Nat.cast_ofNat, div_eq_mul_inv, ← hcast]

end Double

end SchemaModel
