import Mathlib.Algebra.Order.Field.Rat
import Mathlib.Tactic.FieldSimp
import Mathlib.Tactic.Ring
import SchemaModel.Proofs.NumberText

/-!
The texts of decimal numerals. A numeral is read from a text exactly if the text has the parts of
one (`Numeral.read?_eq_some_iff`): a sign or none, digits before and after a point, of which some
may be missing, and an exponent or none. The parts are determined by the text
(`Numeral.Parts.WellFormed.chars_unique`), and with them the number that it denotes.
-/

namespace SchemaModel

open Text

namespace Text

theorem number_append (a b : List Char) :
    number (a ++ b) = number a * 10 ^ b.length + number b := by
  rw [number, Nat.ofDigitChars_append, Nat.ofDigitChars_eq_ofDigitChars_zero, Nat.mul_comm]
  rfl

theorem number_toDigits (n : Nat) : number (Nat.toDigits 10 n) = n := Nat.ofDigitChars_ten_toDigits

theorem number_zeros (n : Nat) : number (List.replicate n '0') = 0 := by
  rw [number, Nat.ofDigitChars_replicate_zero, Nat.mul_zero]

theorem digits_toDigits (n : Nat) : Digits (Nat.toDigits 10 n) :=
  ⟨Nat.toDigits_ne_nil, fun _ => Nat.isDigit_of_mem_toDigits (by decide) (by decide)⟩

end Text

namespace Numeral

/-- Digits as a number, times a power of ten. -/
def scaled (digits : List Char) (power : Int) : ℚ := number digits * 10 ^ power

/-- Zeros behind the digits raise the number by powers of ten. -/
theorem scaled_zeros (digits : List Char) (n : Nat) (power : Int) :
    scaled (digits ++ List.replicate n '0') power = scaled digits (power + n) := by
  rw [scaled, scaled, number_append, number_zeros, List.length_replicate,
    zpow_add₀ (by norm_num), zpow_natCast]
  push_cast
  ring

/-- Zeros before the digits do not count. -/
theorem zeros_scaled (digits : List Char) (n : Nat) (power : Int) :
    scaled (List.replicate n '0' ++ digits) power = scaled digits power := by
  rw [scaled, scaled, number_append, number_zeros, Nat.zero_mul, Nat.zero_add]

/-- The parts of the text of a numeral. The exponent has its own sign, and `power` is its value. -/
structure Parts where
  sign : List Char
  whole : List Char
  point : List Char
  fraction : List Char
  mark : List Char
  exponent : List Char
  power : Int

namespace Parts

variable {p q : Parts}

def chars (p : Parts) : List Char :=
  p.sign ++ (p.whole ++ (p.point ++ (p.fraction ++ (p.mark ++ p.exponent))))

def numeral (p : Parts) : Numeral := ⟨p.sign = ['-'], p.whole, p.fraction, p.power⟩

/-- The number without its sign. -/
def magnitude (p : Parts) : ℚ := scaled (p.whole ++ p.fraction) (p.power - p.fraction.length)

/-- The number that the text denotes. -/
def value (p : Parts) : ℚ := if p.sign = ['-'] then -p.magnitude else p.magnitude

/-- The parts are what they are called, and there is a digit besides the exponent. -/
structure WellFormed (p : Parts) : Prop where
  sign : IsSign p.sign
  whole : ∀ c ∈ p.whole, c.isDigit
  point : p.point = [] ∧ p.fraction = [] ∨ p.point = ['.']
  fraction : ∀ c ∈ p.fraction, c.isDigit
  some : p.whole ≠ [] ∨ p.fraction ≠ []
  exponent : p.mark = [] ∧ p.exponent = [] ∧ p.power = 0 ∨
    (p.mark = ['e'] ∨ p.mark = ['E']) ∧ Whole p.exponent p.power

end Parts

theorem exponent?_eq (cs : List Char) : exponent? cs = integerText? cs := by
  unfold exponent? integerText?
  obtain ⟨negative, digits⟩ := splitSign cs
  cases negative <;> rfl

theorem Whole.unique {cs : List Char} {m n : Int} (hm : Whole cs m) (hn : Whole cs n) : m = n := by
  rw [← integerText?_eq_some_iff] at hm hn
  exact Option.some.inj (hm.symm.trans hn)

/-- What is behind a sign. -/
theorem exists_of_splitSign {cs rest : List Char} {negative : Bool}
    (h : splitSign cs = (negative, rest)) :
    ∃ sign, IsSign sign ∧ cs = sign ++ rest ∧ negative = decide (sign = ['-']) := by
  obtain ⟨digits, rfl, hsplit⟩ | ⟨digits, rfl, hsplit⟩ | hsplit := splitSign_cases cs
  · cases hsplit.symm.trans h
    exact ⟨['-'], .inr (.inr rfl), rfl, rfl⟩
  · cases hsplit.symm.trans h
    exact ⟨['+'], .inr (.inl rfl), rfl, rfl⟩
  · cases hsplit.symm.trans h
    exact ⟨[], .inl rfl, rfl, rfl⟩

theorem splitSign_append {sign rest : List Char} (hs : IsSign sign)
    (hr : ∀ c ∈ rest.head?, c ≠ '+' ∧ c ≠ '-') :
    splitSign (sign ++ rest) = (decide (sign = ['-']), rest) := by
  rcases hs with rfl | rfl | rfl
  · rw [List.nil_append]
    unfold splitSign
    split
    · exact absurd rfl (hr '-' rfl).2
    · exact absurd rfl (hr '+' rfl).1
    · rfl
  · rfl
  · rfl

/-- The digits behind a point, if there is one, and what follows. -/
def splitFraction : List Char → List Char × List Char
  | '.' :: rest => spanDigits rest
  | cs => ([], cs)

theorem exists_of_splitFraction {cs fraction rest : List Char}
    (h : splitFraction cs = (fraction, rest)) :
    ∃ point, (point = [] ∧ fraction = [] ∨ point = ['.']) ∧ (∀ c ∈ fraction, c.isDigit) ∧
      cs = point ++ (fraction ++ rest) := by
  unfold splitFraction at h
  split at h
  · cases h
    exact ⟨['.'], .inr rfl, fun _ => List.mem_takeWhile_imp,
      congrArg _ List.takeWhile_append_dropWhile.symm⟩
  · cases h
    exact ⟨[], .inl ⟨rfl, rfl⟩, nofun, rfl⟩

theorem spanDigits_append {digits rest : List Char} (hd : ∀ c ∈ digits, c.isDigit)
    (hr : ∀ c ∈ rest.head?, c.isDigit = false) : spanDigits (digits ++ rest) = (digits, rest) := by
  rw [spanDigits, List.takeWhile_append_of_pos hd, List.dropWhile_append_of_pos hd]
  cases rest with
  | nil => simp
  | cons c rest =>
    have hc : ¬c.isDigit := by simp [hr c rfl]
    rw [List.takeWhile_cons_of_neg hc, List.dropWhile_cons_of_neg hc, List.append_nil]

theorem splitFraction_append {point fraction rest : List Char}
    (hp : point = [] ∧ fraction = [] ∨ point = ['.']) (hf : ∀ c ∈ fraction, c.isDigit)
    (hr : ∀ c ∈ rest.head?, c.isDigit = false ∧ c ≠ '.') :
    splitFraction (point ++ (fraction ++ rest)) = (fraction, rest) := by
  rcases hp with ⟨rfl, rfl⟩ | rfl
  · rw [List.nil_append, List.nil_append]
    unfold splitFraction
    split
    · exact absurd rfl (hr '.' rfl).2
    · rfl
  · exact spanDigits_append hf fun c hc => (hr c hc).1

/-- The exponent that a text is, if it is not empty. -/
def splitExponent : List Char → Option Int
  | [] => some 0
  | c :: rest => if c = 'e' || c = 'E' then exponent? rest else none

theorem splitExponent_eq_some_iff {cs : List Char} {power : Int} :
    splitExponent cs = some power ↔ ∃ mark exponent, cs = mark ++ exponent ∧
      (mark = [] ∧ exponent = [] ∧ power = 0 ∨
        (mark = ['e'] ∨ mark = ['E']) ∧ Whole exponent power) := by
  cases cs with
  | nil =>
    rw [splitExponent, Option.some.injEq]
    constructor
    · rintro rfl
      exact ⟨[], [], rfl, .inl ⟨rfl, rfl, rfl⟩⟩
    · rintro ⟨mark, exponent, hcs, ⟨-, -, rfl⟩ | ⟨rfl | rfl, -⟩⟩
      · rfl
      · cases hcs
      · cases hcs
  | cons c rest =>
    rw [splitExponent, Option.ite_none_right_eq_some, exponent?_eq, integerText?_eq_some_iff,
      Bool.or_eq_true, decide_eq_true_eq, decide_eq_true_eq]
    constructor
    · rintro ⟨hc, hwhole⟩
      exact ⟨[c], rest, rfl, .inr ⟨by simpa using hc, hwhole⟩⟩
    · rintro ⟨mark, exponent, hcs, ⟨rfl, rfl, -⟩ | ⟨rfl | rfl, hwhole⟩⟩
      · cases hcs
      · cases hcs
        exact ⟨.inl rfl, hwhole⟩
      · cases hcs
        exact ⟨.inr rfl, hwhole⟩

theorem read?_eq (cs : List Char) : read? cs =
    let (negative, rest) := splitSign cs
    let (whole, rest) := spanDigits rest
    let (fraction, rest) := splitFraction rest
    if whole = [] ∧ fraction = [] then none
    else (splitExponent rest).map fun power => ⟨negative, whole, fraction, power⟩ := by
  rw [read?]
  obtain ⟨negative, rest⟩ := splitSign cs
  dsimp only
  obtain ⟨whole, rest⟩ := spanDigits rest
  change (if (whole.isEmpty && (splitFraction rest).1.isEmpty) = true then none
    else match (splitFraction rest).2 with
      | [] => some (Numeral.mk negative whole (splitFraction rest).1 0)
      | c :: tail =>
        if c = 'e' || c = 'E' then
          (exponent? tail).map fun power => Numeral.mk negative whole (splitFraction rest).1 power
        else none) = _
  obtain ⟨fraction, rest⟩ := splitFraction rest
  simp only [Bool.and_eq_true, List.isEmpty_iff]
  cases rest with
  | nil => rfl
  | cons c tail =>
    dsimp only [splitExponent]
    rw [apply_ite (Option.map _), Option.map_none]

namespace Parts

variable {p q : Parts}

theorem WellFormed.head?_exponent (h : p.WellFormed) :
    ∀ c ∈ (p.mark ++ p.exponent).head?, c = 'e' ∨ c = 'E' := by
  rcases h.exponent with ⟨hm, he, -⟩ | ⟨hm | hm, -⟩
  · rw [hm, he]
    nofun
  · rw [hm]
    rintro _ ⟨⟩
    exact .inl rfl
  · rw [hm]
    rintro _ ⟨⟩
    exact .inr rfl

/-- No digit, sign or point comes next where only an exponent can. -/
theorem WellFormed.not_exponent (h : p.WellFormed) (kind : Char → Bool) (he : kind 'e' = false)
    (hE : kind 'E' = false) : ∀ c ∈ (p.mark ++ p.exponent).head?, kind c = false := by
  intro c hc
  rcases h.head?_exponent c hc with rfl | rfl
  · exact he
  · exact hE

theorem WellFormed.head?_point (h : p.WellFormed) (kind : Char → Bool) (hp : kind '.' = false)
    (he : kind 'e' = false) (hE : kind 'E' = false) :
    ∀ c ∈ (p.point ++ (p.fraction ++ (p.mark ++ p.exponent))).head?, kind c = false := by
  rcases h.point with ⟨hpoint, hfraction⟩ | hpoint
  · rw [hpoint, hfraction]
    exact h.not_exponent kind he hE
  · rw [hpoint]
    rintro _ ⟨⟩
    exact hp

theorem WellFormed.head?_whole (h : p.WellFormed) (kind : Char → Bool) (hp : kind '.' = false)
    (hd : ∀ c, c.isDigit → kind c = false) :
    ∀ c ∈ (p.whole ++ (p.point ++ (p.fraction ++ (p.mark ++ p.exponent)))).head?,
      kind c = false := by
  by_cases hw : p.whole = []
  · rcases h.point with ⟨-, hfraction⟩ | hpoint
    · exact absurd hfraction (h.some.resolve_left (not_not_intro hw))
    · rw [hw, hpoint]
      rintro _ ⟨⟩
      exact hp
  · exact Digits.head? ⟨hw, h.whole⟩ hd _

end Parts

/-- A text is read as a numeral exactly if it has the parts of one. -/
theorem read?_eq_some_iff {cs : List Char} {n : Numeral} :
    read? cs = some n ↔ ∃ p : Parts, p.WellFormed ∧ p.chars = cs ∧ p.numeral = n := by
  rw [read?_eq]
  constructor
  · intro h
    obtain ⟨⟨negative, afterSign⟩, hsplit⟩ : ∃ split, splitSign cs = split := ⟨_, rfl⟩
    obtain ⟨⟨fraction, tail⟩, htail⟩ :
      ∃ split, splitFraction (spanDigits afterSign).2 = split := ⟨_, rfl⟩
    obtain ⟨sign, hsign, rfl, rfl⟩ := exists_of_splitSign hsplit
    obtain ⟨point, hpoint, hfraction, hrest⟩ := exists_of_splitFraction htail
    simp only [hsplit, htail] at h
    rw [Option.ite_none_left_eq_some] at h
    obtain ⟨hsome, h⟩ := h
    obtain ⟨power, hpower, rfl⟩ := Option.map_eq_some_iff.1 h
    obtain ⟨mark, exponent, rfl, hexponent⟩ := splitExponent_eq_some_iff.1 hpower
    refine ⟨⟨sign, (spanDigits afterSign).1, point, fraction, mark, exponent, power⟩,
      ⟨hsign, fun _ => List.mem_takeWhile_imp, hpoint, hfraction, ?_, hexponent⟩, ?_, rfl⟩
    · rwa [not_and_or] at hsome
    · have hspan : afterSign = (spanDigits afterSign).1 ++ (spanDigits afterSign).2 :=
        List.takeWhile_append_dropWhile.symm
      rw [Parts.chars, ← hrest, ← hspan]
  · rintro ⟨p, h, rfl, rfl⟩
    have hsign := splitSign_append h.sign fun c hc => by
      have hkind := h.head?_whole (fun c => c == '+' || c == '-') rfl isSign_of_isDigit c hc
      simpa using hkind
    have hwhole := spanDigits_append h.whole (h.head?_point Char.isDigit rfl rfl rfl)
    have hfraction := splitFraction_append h.point h.fraction fun c hc => by
      have hkind := h.not_exponent (fun c => c.isDigit || c == '.') rfl rfl c hc
      simpa using hkind
    have hexponent := splitExponent_eq_some_iff.2 ⟨p.mark, p.exponent, rfl, h.exponent⟩
    simp only [Parts.chars, hsign, hwhole, hfraction, hexponent]
    rw [if_neg (by rw [not_and_or]; exact h.some)]
    rfl

theorem Whole.head? {cs : List Char} {n : Int} (h : Whole cs n) {kind : Char → Bool}
    (hplus : kind '+' = false) (hminus : kind '-' = false)
    (hd : ∀ c, c.isDigit → kind c = false) : ∀ c ∈ cs.head?, kind c = false := by
  cases h with
  | unsigned hsome hdecimal =>
    have hhead := Digits.head? ⟨hsome, hdecimal⟩ hd []
    rwa [List.append_nil] at hhead
  | plus =>
    rintro _ ⟨⟩
    exact hplus
  | minus =>
    rintro _ ⟨⟩
    exact hminus

namespace Parts

variable {p q : Parts}

theorem WellFormed.head?_fraction (h : p.WellFormed) (kind : Char → Bool)
    (hd : ∀ c, c.isDigit → kind c = false) (he : kind 'e' = false) (hE : kind 'E' = false) :
    ∀ c ∈ (p.fraction ++ (p.mark ++ p.exponent)).head?, kind c = false := by
  by_cases hf : p.fraction = []
  · rw [hf]
    exact h.not_exponent kind he hE
  · exact Digits.head? ⟨hf, h.fraction⟩ hd _

/-- The marks of an exponent. -/
def isMark (c : Char) : Bool := c == 'e' || c == 'E'

theorem isMark_of_isDigit (c : Char) (h : c.isDigit) : isMark c = false := by
  rw [isMark, Bool.or_eq_false_iff, beq_eq_false_iff_ne, beq_eq_false_iff_ne]
  constructor <;> rintro rfl <;> cases h

theorem WellFormed.mem_mark (h : p.WellFormed) : ∀ c ∈ p.mark, isMark c := by
  rcases h.exponent with ⟨hm, -⟩ | ⟨hm | hm, -⟩ <;> rw [hm]
  · nofun
  · exact List.forall_mem_singleton.2 rfl
  · exact List.forall_mem_singleton.2 rfl

theorem WellFormed.not_mark (h : p.WellFormed) : ∀ c ∈ p.exponent.head?, isMark c = false := by
  rcases h.exponent with ⟨-, he, -⟩ | ⟨-, hwhole⟩
  · rw [he]
    nofun
  · exact hwhole.head? rfl rfl isMark_of_isDigit

theorem WellFormed.mem_point (h : p.WellFormed) : ∀ c ∈ p.point, c == '.' := by
  rcases h.point with ⟨hpoint, -⟩ | hpoint <;> rw [hpoint]
  · nofun
  · exact List.forall_mem_singleton.2 rfl

theorem not_point_of_isDigit (c : Char) (h : c.isDigit) : (c == '.') = false := by
  rw [beq_eq_false_iff_ne]
  rintro rfl
  cases h

/-- The parts of a numeral are determined by its text. -/
theorem WellFormed.chars_unique (hp : p.WellFormed) (hq : q.WellFormed)
    (h : p.chars = q.chars) : p = q := by
  obtain ⟨hsign, h⟩ := span_unique hp.sign.mem hq.sign.mem
    (hp.head?_whole _ rfl isSign_of_isDigit) (hq.head?_whole _ rfl isSign_of_isDigit) h
  obtain ⟨hwhole, h⟩ := span_unique hp.whole hq.whole (hp.head?_point _ rfl rfl rfl)
    (hq.head?_point _ rfl rfl rfl) h
  obtain ⟨hpoint, h⟩ := span_unique hp.mem_point hq.mem_point
    (hp.head?_fraction _ not_point_of_isDigit rfl rfl)
    (hq.head?_fraction _ not_point_of_isDigit rfl rfl) h
  obtain ⟨hfraction, h⟩ := span_unique hp.fraction hq.fraction (hp.not_exponent _ rfl rfl)
    (hq.not_exponent _ rfl rfl) h
  obtain ⟨hmark, hexponent⟩ := span_unique hp.mem_mark hq.mem_mark hp.not_mark hq.not_mark h
  have hpower : p.power = q.power := by
    rcases hp.exponent with ⟨hm, -, hpower⟩ | ⟨hm, hpower⟩
    · rcases hq.exponent with ⟨-, -, hother⟩ | ⟨hother, -⟩
      · rw [hpower, hother]
      · rw [← hmark, hm] at hother
        simp at hother
    · rcases hq.exponent with ⟨hother, -⟩ | ⟨-, hother⟩
      · rw [hmark, hother] at hm
        simp at hm
      · rw [hexponent] at hpower
        exact hpower.unique hother
  cases p
  cases q
  simp_all

end Parts

end Numeral

end SchemaModel
