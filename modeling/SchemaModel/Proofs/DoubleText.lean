import SchemaModel.Json.Printer
import SchemaModel.Proofs.NumeralText

/-!
The texts of numbers. However its digits are laid out, with a point or with an exponent, the text of
a number is that of a numeral of its value, in which a digit follows the point
(`Number.exists_parts`).
-/

namespace SchemaModel

open Text Numeral

namespace Double

def Decimal.value (d : Decimal) : ℚ := d.digits * 10 ^ d.power

/-- The shortest decimal number of a double, with its sign. -/
def decimal (x : Double) : ℚ :=
  let magnitude := if x.isZero then 0 else x.shortest.value
  if x.negative then -magnitude else magnitude

/-- Zeros at the end of the digits are dropped, but they count. -/
theorem Decimal.value_strip (d : Decimal) (fuel : Nat) : (d.strip fuel).value = d.value := by
  induction fuel generalizing d with
  | zero => rfl
  | succ fuel ih =>
    rw [strip]
    split
    · rename_i hstrip
      rw [Bool.and_eq_true, beq_iff_eq] at hstrip
      have hten : 10 * (d.digits / 10) = d.digits := by omega
      have hcast : (d.digits : ℚ) = 10 * (d.digits / 10 : ℕ) := by exact_mod_cast hten.symm
      rw [ih, value, value, hcast, zpow_add_one₀ (by norm_num)]
      ring
    · rfl

end Double

namespace Numeral.Parts

/-- The parts of a text without a sign, whose number is `q`, and in which a digit follows the
point. -/
structure Writes (p : Parts) (text : List Char) (q : ℚ) : Prop extends WellFormed p where
  unsigned : p.sign = []
  point_fraction : p.point = [] ∨ p.fraction ≠ []
  marked : p.point ≠ [] ∨ p.mark ≠ []
  chars : p.chars = text
  magnitude : p.magnitude = q

end Numeral.Parts

namespace Double

/-- The digits of a number with a point behind the first, if there are more. -/
theorem exists_pointed (n : Nat) : ∃ whole point fraction,
    (pointed (toString n)).toList = whole ++ (point ++ fraction) ∧
    whole ++ fraction = Nat.toDigits 10 n ∧ whole ≠ [] ∧
    (point = [] ∧ fraction = [] ∨ point = ['.'] ∧ fraction ≠ []) ∧
    (fraction.length : Int) = (toString n).length - 1 := by
  have hdigits : (toString n).toList = Nat.toDigits 10 n := by simp
  have hlength : (toString n).length = (Nat.toDigits 10 n).length := by
    rw [← String.length_toList, hdigits]
  rw [pointed, hdigits, hlength]
  obtain ⟨first, rest, hcons⟩ := List.exists_cons_of_ne_nil (Nat.toDigits_ne_nil (n := n) (b := 10))
  cases rest with
  | nil =>
    refine ⟨[first], [], [], ?_, by simp [hcons], by simp, .inl ⟨rfl, rfl⟩, by simp [hcons]⟩
    rw [hcons]
    simpa using hdigits.trans hcons
  | cons next rest =>
    refine ⟨[first], ['.'], next :: rest, ?_, by simp [hcons], by simp, .inr ⟨rfl, by simp⟩,
      by simp [hcons]⟩
    rw [hcons]
    simp

theorem toList_zeros (n : Nat) : (zeros n).toList = List.replicate n '0' := by simp [zeros]

/-- A number with an exponent that is the power of its first digit. -/
theorem exists_scientific (d : Decimal) {exponent : List Char} {power : Int}
    (he : Whole exponent power) (hp : power = d.power + (toString d.digits).length - 1) :
    ∃ p : Parts, p.Writes ((pointed (toString d.digits)).toList ++ 'e' :: exponent) d.value := by
  obtain ⟨whole, point, fraction, htext, hdigits, hwhole, hpoint, hlength⟩ :=
    exists_pointed d.digits
  have hdecimal := digits_toDigits d.digits
  rw [← hdigits] at hdecimal
  refine ⟨⟨[], whole, point, fraction, ['e'], exponent, power⟩, ⟨.inl rfl, ?_, ?_, ?_, .inl hwhole,
    .inr ⟨.inl rfl, he⟩⟩, rfl, ?_, .inr (by simp), ?_, ?_⟩
  · exact fun c hc => hdecimal.decimal c (List.mem_append_left _ hc)
  · exact hpoint.imp_right And.left
  · exact fun c hc => hdecimal.decimal c (List.mem_append_right _ hc)
  · exact hpoint.imp And.left And.right
  · rw [htext]
    simp [Parts.chars]
  · have hpower : power - fraction.length = d.power := by omega
    rw [Parts.magnitude, hdigits, hpower, scaled, number_toDigits, Decimal.value]

/-- A number in positional notation. -/
theorem exists_positional (d : Decimal) (whole fraction : List Char)
    (hw : ∀ c ∈ whole, c.isDigit) (hf : Digits fraction)
    (hvalue : scaled (whole ++ fraction) (-fraction.length) = d.value) :
    ∃ p : Parts, p.Writes (whole ++ '.' :: fraction) d.value := by
  refine ⟨⟨[], whole, ['.'], fraction, [], [], 0⟩, ⟨.inl rfl, hw, .inr rfl, hf.decimal,
    .inr hf.some, .inl ⟨rfl, rfl, rfl⟩⟩, rfl, .inr hf.some, .inl (by simp), ?_, ?_⟩
  · simp [Parts.chars]
  · rw [Parts.magnitude, ← hvalue, Int.zero_sub]

theorem isDigit_zeros (n : Nat) : ∀ c ∈ List.replicate n '0', c.isDigit := by
  intro c hc
  rw [List.eq_of_mem_replicate hc]
  rfl

theorem digits_zero : Digits ['0'] := ⟨by simp, List.forall_mem_singleton.2 rfl⟩

theorem Decimal.scaled_digits (d : Decimal) :
    scaled (Nat.toDigits 10 d.digits) d.power = d.value := by
  rw [scaled, number_toDigits, value]

/-- A whole number, with zeros behind its digits. -/
theorem exists_whole (d : Decimal) (hp : 0 ≤ d.power) : ∃ p : Parts,
    p.Writes (Nat.toDigits 10 d.digits ++ List.replicate d.power.toNat '0' ++ ".0".toList)
      d.value := by
  have hdigit : ∀ c ∈ Nat.toDigits 10 d.digits ++ List.replicate d.power.toNat '0', c.isDigit := by
    intro c hc
    exact (List.mem_append.1 hc).elim ((digits_toDigits _).decimal c) (isDigit_zeros _ c)
  refine exists_positional d _ ['0'] hdigit digits_zero ?_
  rw [List.append_assoc, ← List.replicate_succ', scaled_zeros, ← d.scaled_digits]
  congr 1
  simp
  omega

/-- A number with the point among its digits. -/
theorem exists_split (d : Decimal) (whole : Nat) (hw : whole < (Nat.toDigits 10 d.digits).length)
    (hp : d.power = whole - (Nat.toDigits 10 d.digits).length) : ∃ p : Parts,
    p.Writes ((Nat.toDigits 10 d.digits).take whole ++
      '.' :: (Nat.toDigits 10 d.digits).drop whole) d.value := by
  have hdigit := (digits_toDigits d.digits).decimal
  have hlength : (((Nat.toDigits 10 d.digits).drop whole).length : Int) = -d.power := by
    rw [List.length_drop]
    omega
  refine exists_positional d _ _ (fun c hc => hdigit c (List.mem_of_mem_take hc))
    ⟨fun hnil => ?_, fun c hc => hdigit c (List.mem_of_mem_drop hc)⟩ ?_
  · rw [hnil, List.length_nil] at hlength
    omega
  · rw [List.take_append_drop, hlength, Int.neg_neg, d.scaled_digits]

/-- A number below one, with zeros before its digits. -/
theorem exists_below_one (d : Decimal) (zeros : Nat)
    (hp : d.power = -((zeros : Int) + (Nat.toDigits 10 d.digits).length)) : ∃ p : Parts,
    p.Writes ("0.".toList ++ List.replicate zeros '0' ++ Nat.toDigits 10 d.digits) d.value := by
  have hdigit : Digits (List.replicate zeros '0' ++ Nat.toDigits 10 d.digits) :=
    ⟨by simp [(digits_toDigits d.digits).some], fun c hc => (List.mem_append.1 hc).elim
      (isDigit_zeros _ c) ((digits_toDigits _).decimal c)⟩
  have hzeros : ['0'] ++ (List.replicate zeros '0' ++ Nat.toDigits 10 d.digits) =
      List.replicate (zeros + 1) '0' ++ Nat.toDigits 10 d.digits := by
    rw [← List.append_assoc, List.replicate_succ]
    rfl
  refine exists_positional d ['0'] (List.replicate zeros '0' ++ Nat.toDigits 10 d.digits)
    digits_zero.decimal hdigit ?_
  rw [hzeros, zeros_scaled, ← d.scaled_digits, List.length_append, List.length_replicate, hp]
  push_cast
  rfl

theorem whole_plus {n : Int} (hn : 0 ≤ n) : Whole ('+' :: Nat.toDigits 10 n.toNat) n := by
  have h := Whole.plus (digits_toDigits n.toNat).some (digits_toDigits n.toNat).decimal
  rwa [← number, number_toDigits, Int.toNat_of_nonneg hn] at h

theorem whole_minus {n : Int} (hn : n ≤ 0) : Whole ('-' :: Nat.toDigits 10 (-n).toNat) n := by
  have h := Whole.minus (digits_toDigits (-n).toNat).some (digits_toDigits (-n).toNat).decimal
  rwa [← number, number_toDigits, Int.toNat_of_nonneg (Int.neg_nonneg_of_nonpos hn),
    Int.neg_neg] at h

/-- The text of a number is laid out so that it denotes the number. -/
theorem Layout.exists_parts (d : Decimal) :
    ∃ p : Parts, p.Writes (Layout.standard.render d).toList d.value := by
  have hdigits : (toString d.digits).toList = Nat.toDigits 10 d.digits := by simp
  have hlength : (toString d.digits).length = (Nat.toDigits 10 d.digits).length := by
    rw [← String.length_toList, hdigits]
  have hpositive := List.length_pos_of_ne_nil (digits_toDigits d.digits).some
  have hlayout : Layout.standard.most = 16 ∧ Layout.standard.least = -5 := ⟨rfl, rfl⟩
  have hself : ∀ text : String, toString text = text := fun _ => rfl
  rw [render]
  generalize hlead : d.power + ((toString d.digits).length : Int) - 1 = lead
  by_cases hmost : Layout.standard.most ≤ lead
  · obtain ⟨p, hp⟩ := exists_scientific d (whole_plus (by omega)) hlead.symm
    rw [if_pos hmost]
    exact ⟨p, by simpa [hself] using hp⟩
  rw [if_neg hmost]
  by_cases hleast : lead < Layout.standard.least
  · obtain ⟨p, hp⟩ := exists_scientific d (whole_minus (by omega)) hlead.symm
    rw [if_pos hleast]
    exact ⟨p, by simpa [hself] using hp⟩
  rw [if_neg hleast]
  by_cases hwhole : 0 ≤ d.power
  · obtain ⟨p, hp⟩ := exists_whole d hwhole
    rw [if_pos hwhole]
    exact ⟨p, by simpa [toList_zeros] using hp⟩
  rw [if_neg hwhole]
  by_cases hpoint : 0 ≤ lead
  · obtain ⟨p, hp⟩ := exists_split d (lead.toNat + 1) (by omega) (by omega)
    rw [if_pos hpoint]
    exact ⟨p, by simpa [hdigits] using hp⟩
  · obtain ⟨p, hp⟩ := exists_below_one d (-lead - 1).toNat (by omega)
    rw [if_neg hpoint]
    exact ⟨p, by simpa [toList_zeros] using hp⟩

/-- The text of a double is its sign and the text of its shortest decimal number. -/
theorem exists_parts (x : Double) : ∃ p : Parts, p.WellFormed ∧ p.chars = x.text.toList ∧
    (p.point = [] ∨ p.fraction ≠ []) ∧ (p.point ≠ [] ∨ p.mark ≠ []) ∧
    p.sign = (if x.negative then ['-'] else []) ∧
    p.magnitude = if x.isZero then 0 else x.shortest.value := by
  have hbody : ∃ p : Parts, p.Writes
      (if x.isZero then "0.0" else Layout.standard.render (x.shortest.strip 400)).toList
      (if x.isZero then 0 else x.shortest.value) := by
    by_cases hzero : x.isZero
    · rw [if_pos hzero, if_pos hzero]
      have hvalue : (Decimal.mk 0 0).value = 0 := by simp [Decimal.value]
      obtain ⟨p, hp⟩ := exists_whole ⟨0, 0⟩ (Int.le_refl 0)
      rw [hvalue] at hp
      exact ⟨p, hp⟩
    · rw [if_neg hzero, if_neg hzero]
      obtain ⟨p, hp⟩ := Layout.exists_parts (x.shortest.strip 400)
      rw [Decimal.value_strip] at hp
      exact ⟨p, hp⟩
  obtain ⟨p, hp⟩ := hbody
  have htext : x.text.toList = (if x.negative then ['-'] else []) ++ p.chars := by
    rw [hp.chars, text]
    cases x.negative <;> cases x.isZero <;> simp
  refine ⟨{ p with sign := if x.negative then ['-'] else [] },
    ⟨?_, hp.whole, hp.point, hp.fraction, hp.some, hp.exponent⟩, ?_, hp.point_fraction, hp.marked,
    rfl, hp.magnitude⟩
  · cases x.negative
    · exact .inl rfl
    · exact .inr (.inr rfl)
  · rw [htext, Parts.chars, Parts.chars, hp.unsigned]
    rfl

end Double

/-- The number that a number stands for: itself, or the shortest decimal number of a double. -/
def Number.decimal : Number → ℚ
  | .int n => n
  | .double x => x.decimal

theorem toList_int (n : Int) :
    (toString n).toList = (if n < 0 then ['-'] else []) ++ Nat.toDigits 10 n.natAbs := by
  cases n with
  | ofNat k =>
    change k.repr.toList = _
    simp
  | negSucc k =>
    change ("-" ++ (k + 1).repr).toList = _
    simp

theorem Number.exists_parts (n : Number) : ∃ p : Parts, p.WellFormed ∧ p.chars = n.text.toList ∧
    (p.point = [] ∨ p.fraction ≠ []) ∧ p.value = n.decimal := by
  cases n with
  | int n =>
    refine ⟨⟨if n < 0 then ['-'] else [], Nat.toDigits 10 n.natAbs, [], [], [], [], 0⟩,
      ⟨?_, (digits_toDigits _).decimal, .inl ⟨rfl, rfl⟩, nofun, .inl (digits_toDigits _).some,
        .inl ⟨rfl, rfl, rfl⟩⟩, ?_, .inl rfl, ?_⟩
    · dsimp only
      split
      · exact .inr (.inr rfl)
      · exact .inl rfl
    · rw [text, toList_int]
      simp [Parts.chars]
    · have hmagnitude : scaled (Nat.toDigits 10 n.natAbs) 0 = (n.natAbs : ℚ) := by
        rw [scaled, number_toDigits, zpow_zero, mul_one]
      simp only [Parts.value, Parts.magnitude, List.append_nil, List.length_nil, Nat.cast_zero,
        sub_zero, hmagnitude, decimal]
      by_cases hn : n < 0
      · have habs : ((n.natAbs : Int) : ℚ) = -n := by
          rw [Int.ofNat_natAbs_of_nonpos hn.le]
          push_cast
          rfl
        rw [if_pos hn, if_pos rfl, ← Int.cast_natCast, habs, neg_neg]
      · have habs : ((n.natAbs : Int) : ℚ) = n := by
          rw [Int.natAbs_of_nonneg (by omega)]
        rw [if_neg hn, if_neg (by simp), ← Int.cast_natCast, habs]
  | double x =>
    obtain ⟨p, hp, hchars, hpoint, -, hsign, hmagnitude⟩ := x.exists_parts
    refine ⟨p, hp, hchars, hpoint, ?_⟩
    rw [Parts.value, hsign, hmagnitude, decimal, Double.decimal]
    cases x.negative <;> rfl

end SchemaModel
