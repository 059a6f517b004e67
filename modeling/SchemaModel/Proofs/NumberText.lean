import Mathlib.Data.List.TakeWhile
import SchemaModel.Coercion

/-!
Whole numbers in defaults. A default denotes a whole number if it is one, or if it is a text of
decimal digits, behind a sign or not, with white space around it or not (`Json.Whole`). Those of
64 bits are read, and read as what they are (`Json.integer?_eq_some_iff`).
-/

namespace SchemaModel

namespace Text

/-- The text, with white space around it. -/
structure Trims (cs inner : List Char) : Prop where
  around : ∃ before after, (∀ c ∈ before, isBlank c) ∧ (∀ c ∈ after, isBlank c) ∧
    cs = before ++ inner ++ after
  first : ∀ c ∈ inner.head?, isBlank c = false
  last : ∀ c ∈ inner.getLast?, isBlank c = false

theorem head?_trimStart (cs : List Char) : ∀ c ∈ (trimStart cs).head?, isBlank c = false := by
  intro c hc
  have h := List.head?_dropWhile_not isBlank cs
  rw [← trimStart, Option.mem_def.1 hc] at h
  exact h

/-- White space is dropped up to the first other character. -/
theorem trimStart_append {before rest : List Char} (hb : ∀ c ∈ before, isBlank c)
    (hr : ∀ c ∈ rest.head?, isBlank c = false) : trimStart (before ++ rest) = rest := by
  rw [trimStart, List.dropWhile_append_of_pos hb]
  cases rest with
  | nil => rfl
  | cons c rest => exact List.dropWhile_cons_of_neg (by simp [hr c rfl])

theorem exists_trimStart (cs : List Char) :
    ∃ before, (∀ c ∈ before, isBlank c) ∧ cs = before ++ trimStart cs :=
  ⟨cs.takeWhile isBlank, fun _ => List.mem_takeWhile_imp, List.takeWhile_append_dropWhile.symm⟩

theorem trims_trim (cs : List Char) : Trims cs (trim cs) := by
  obtain ⟨before, hbefore, hcs⟩ := exists_trimStart cs
  obtain ⟨after, hafter, hrest⟩ := exists_trimStart (trimStart cs).reverse
  have hinner : trimStart cs = trim cs ++ after.reverse := by
    rw [trim, ← List.reverse_append, ← hrest, List.reverse_reverse]
  refine ⟨⟨before, after.reverse, hbefore, by simpa using hafter, ?_⟩, ?_, ?_⟩
  · rw [List.append_assoc, ← hinner]
    exact hcs
  · intro c hc
    refine head?_trimStart cs c ?_
    rw [hinner, List.head?_append, Option.mem_def.1 hc]
    rfl
  · intro c hc
    rw [trim, List.getLast?_reverse] at hc
    exact head?_trimStart _ c hc

theorem trim_eq_iff {cs inner : List Char} : trim cs = inner ↔ Trims cs inner := by
  constructor
  · rintro rfl
    exact trims_trim cs
  · rintro ⟨⟨before, after, hbefore, hafter, rfl⟩, hfirst, hlast⟩
    have hend : trimStart (after.reverse ++ inner.reverse) = inner.reverse :=
      trimStart_append (by simpa using hafter) (by simpa using hlast)
    cases inner with
    | nil =>
      have hall : ∀ c ∈ before ++ after, isBlank c := by
        intro c hc
        exact (List.mem_append.1 hc).elim (hbefore c) (hafter c)
      have hnil : trimStart (before ++ after ++ []) = [] := trimStart_append hall (by simp)
      rw [List.append_nil, trim]
      rw [List.append_nil] at hnil
      rw [hnil]
      rfl
    | cons c rest =>
      have hstart : trimStart (before ++ (c :: rest ++ after)) = c :: rest ++ after :=
        trimStart_append hbefore hfirst
      rw [List.append_assoc, trim, hstart, List.reverse_append, hend, List.reverse_reverse]

end Text

namespace Text

def number (digits : List Char) : Nat := Nat.ofDigitChars 10 digits 0

/-- A sign, or nothing. -/
def IsSign (cs : List Char) : Prop := cs = [] ∨ cs = ['+'] ∨ cs = ['-']

end Text

/-- At least one character, and digits only. -/
structure Text.Digits (cs : List Char) : Prop where
  some : cs ≠ []
  decimal : ∀ c ∈ cs, c.isDigit

namespace Text

/-- Two texts that begin with as many characters of one kind as there are begin alike. -/
theorem span_unique {kind : Char → Bool} {a b r s : List Char} (ha : ∀ c ∈ a, kind c)
    (hb : ∀ c ∈ b, kind c) (hr : ∀ c ∈ r.head?, kind c = false)
    (hs : ∀ c ∈ s.head?, kind c = false) (h : a ++ r = b ++ s) : a = b ∧ r = s := by
  have hspan : ∀ {x y : List Char}, (∀ c ∈ x, kind c) → (∀ c ∈ y.head?, kind c = false) →
      (x ++ y).takeWhile kind = x := by
    intro x y hx hy
    rw [List.takeWhile_append_of_pos hx]
    cases y with
    | nil => exact List.append_nil x
    | cons c y => rw [List.takeWhile_cons_of_neg (by simp [hy c rfl]), List.append_nil]
  have hab : a = b := by rw [← hspan ha hr, h, hspan hb hs]
  subst hab
  exact ⟨rfl, List.append_cancel_left h⟩

theorem Digits.head? {digits : List Char} (h : Digits digits) {kind : Char → Bool}
    (hkind : ∀ c, c.isDigit → kind c = false) (rest : List Char) :
    ∀ c ∈ (digits ++ rest).head?, kind c = false := by
  obtain ⟨c, cs, rfl⟩ := List.exists_cons_of_ne_nil h.some
  rintro _ ⟨⟩
  exact hkind c (h.decimal c List.mem_cons_self)

theorem isBlank_of_isDigit {c : Char} (h : c.isDigit) : isBlank c = false := by
  have hc : 48 ≤ c.toNat ∧ c.toNat ≤ 57 := by
    rw [Char.isDigit, Bool.and_eq_true, decide_eq_true_eq, decide_eq_true_eq] at h
    exact ⟨h.1, h.2⟩
  simp only [isBlank, Bool.or_eq_false_iff, Bool.and_eq_false_iff, decide_eq_false_iff_not]
  omega

theorem IsSign.mem {sign : List Char} (h : IsSign sign) : ∀ c ∈ sign, c == '+' || c == '-' := by
  rcases h with rfl | rfl | rfl
  · nofun
  · exact List.forall_mem_singleton.2 rfl
  · exact List.forall_mem_singleton.2 rfl

theorem isSign_of_isDigit (c : Char) (h : c.isDigit) : (c == '+' || c == '-') = false := by
  rw [Bool.or_eq_false_iff, beq_eq_false_iff_ne, beq_eq_false_iff_ne]
  constructor <;> rintro rfl <;> cases h

end Text

/-- Decimal digits that stand for a whole number, with a sign in front or none. -/
inductive Numeral.Whole : List Char → Int → Prop where
  | unsigned {digits : List Char} (some : digits ≠ []) (decimal : ∀ c ∈ digits, c.isDigit) :
      Whole digits (Nat.ofDigitChars 10 digits 0)
  | plus {digits : List Char} (some : digits ≠ []) (decimal : ∀ c ∈ digits, c.isDigit) :
      Whole ('+' :: digits) (Nat.ofDigitChars 10 digits 0)
  | minus {digits : List Char} (some : digits ≠ []) (decimal : ∀ c ∈ digits, c.isDigit) :
      Whole ('-' :: digits) (-Nat.ofDigitChars 10 digits 0)

/-- The whole number that a default denotes, as a number or as a text. -/
inductive Json.Whole : Json → Int → Prop where
  | number {n : Int} : Whole (.num (.int n)) n
  | text {text : String} {inner : List Char} {n : Int} (trims : Text.Trims text.toList inner)
      (whole : Numeral.Whole inner n) : Whole (.str text) n

theorem Numeral.natOfDigits_eq (digits : List Char) :
    natOfDigits digits = Nat.ofDigitChars 10 digits 0 := rfl

/-- Digits have no sign. -/
theorem Numeral.splitSign_of_digits {digits : List Char} (h : ∀ c ∈ digits, c.isDigit) :
    splitSign digits = (false, digits) := by
  unfold splitSign
  split
  · exact absurd (h '-' List.mem_cons_self) (by decide)
  · exact absurd (h '+' List.mem_cons_self) (by decide)
  · rfl

theorem Numeral.splitSign_cases (cs : List Char) :
    (∃ digits, cs = '-' :: digits ∧ splitSign cs = (true, digits)) ∨
      (∃ digits, cs = '+' :: digits ∧ splitSign cs = (false, digits)) ∨
      splitSign cs = (false, cs) := by
  unfold splitSign
  split
  · exact .inl ⟨_, rfl, rfl⟩
  · exact .inr (.inl ⟨_, rfl, rfl⟩)
  · exact .inr (.inr rfl)

/-- What follows the sign is read as digits, if it is any. -/
theorem integerText?_eq_some_iff_digits {cs digits : List Char} {negative : Bool} {n : Int}
    (h : Numeral.splitSign cs = (negative, digits)) :
    integerText? cs = some n ↔ digits ≠ [] ∧ (∀ c ∈ digits, c.isDigit) ∧
      (if negative then -(Nat.ofDigitChars 10 digits 0 : Int)
        else Nat.ofDigitChars 10 digits 0) = n := by
  simp only [integerText?, h, Numeral.natOfDigits_eq, Option.ite_none_left_eq_some,
    Bool.or_eq_true, Bool.not_eq_true', List.isEmpty_iff, not_or, Bool.not_eq_false,
    List.all_eq_true, Option.some.injEq, ne_eq, and_assoc]

theorem integerText?_eq_some_iff {cs : List Char} {n : Int} :
    integerText? cs = some n ↔ Numeral.Whole cs n := by
  constructor
  · intro h
    obtain ⟨digits, rfl, hsplit⟩ | ⟨digits, rfl, hsplit⟩ | hsplit := Numeral.splitSign_cases cs
    · obtain ⟨hsome, hdecimal, rfl⟩ := (integerText?_eq_some_iff_digits hsplit).1 h
      exact .minus hsome hdecimal
    · obtain ⟨hsome, hdecimal, rfl⟩ := (integerText?_eq_some_iff_digits hsplit).1 h
      exact .plus hsome hdecimal
    · obtain ⟨hsome, hdecimal, rfl⟩ := (integerText?_eq_some_iff_digits hsplit).1 h
      exact .unsigned hsome hdecimal
  · intro h
    cases h with
    | unsigned hsome hdecimal =>
      exact (integerText?_eq_some_iff_digits (Numeral.splitSign_of_digits hdecimal)).2
        ⟨hsome, hdecimal, rfl⟩
    | plus hsome hdecimal =>
      exact (integerText?_eq_some_iff_digits rfl).2 ⟨hsome, hdecimal, rfl⟩
    | minus hsome hdecimal =>
      exact (integerText?_eq_some_iff_digits rfl).2 ⟨hsome, hdecimal, rfl⟩

theorem fitsSigned_32_iff {n : Int} :
    fitsSigned 32 n ↔ -2147483648 ≤ n ∧ n ≤ 2147483647 := by
  have hpow : Nat.pow 2 (32 - 1) = 2147483648 := rfl
  rw [fitsSigned, Bool.and_eq_true, decide_eq_true_eq, decide_eq_true_eq, hpow]
  omega

theorem fitsSigned_64_iff {n : Int} :
    fitsSigned 64 n ↔ -9223372036854775808 ≤ n ∧ n ≤ 9223372036854775807 := by
  have hpow : Nat.pow 2 (64 - 1) = 9223372036854775808 := rfl
  rw [fitsSigned, Bool.and_eq_true, decide_eq_true_eq, decide_eq_true_eq, hpow]
  omega

theorem signed64?_eq_some_iff {n k : Int} :
    signed64? n = some k ↔ n = k ∧ fitsSigned 64 n := by
  rw [signed64?, Option.ite_none_right_eq_some, Option.some.injEq, and_comm]

theorem signed64?_eq_none_iff {n : Int} :
    signed64? n = none ↔ n < -9223372036854775808 ∨ 9223372036854775807 < n := by
  have hnone : signed64? n = none ↔ ¬fitsSigned 64 n := by simp [signed64?]
  rw [hnone, fitsSigned_64_iff]
  omega

/-- A default is read as a whole number if it denotes one of 64 bits. -/
theorem Json.integer?_eq_some_iff {v : Json} {n : Int} :
    v.integer? = some n ↔ v.Whole n ∧ fitsSigned 64 n := by
  unfold integer?
  split
  · rename_i k
    rw [signed64?_eq_some_iff]
    constructor
    · rintro ⟨rfl, hfits⟩
      exact ⟨.number, hfits⟩
    · rintro ⟨h, hfits⟩
      cases h
      exact ⟨rfl, hfits⟩
  · rename_i text
    simp only [Option.bind_eq_some_iff, integerText?_eq_some_iff, signed64?_eq_some_iff]
    constructor
    · rintro ⟨k, hwhole, rfl, hfits⟩
      exact ⟨.text (Text.trims_trim _) hwhole, hfits⟩
    · rintro ⟨h, hfits⟩
      cases h with
      | text htrims hwhole =>
        rw [← Text.trim_eq_iff.2 htrims] at hwhole
        exact ⟨n, hwhole, rfl, hfits⟩
  · rename_i hnumber htext
    simp only [reduceCtorEq, false_iff, not_and]
    intro h
    cases h with
    | number => exact absurd rfl (hnumber _)
    | text => exact absurd rfl (htext _)

example : (Json.str " +07 ").integer? = some 7 := by decide +kernel

end SchemaModel
