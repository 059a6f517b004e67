import SchemaModel.Libraries.Standard
import SchemaModel.Proofs.DateParts

/-!
The dates of the program are the texts with legible parts (`Text.date?_eq_some_iff`).
-/

namespace SchemaModel.Text

/-- A number at the front of a text is its digits. -/
theorem exists_of_splitNumber {width n : Nat} {cs rest : List Char}
    (h : splitNumber width cs = some (n, rest)) :
    ∃ digits, Digits digits ∧ digits.length ≤ width ∧ cs = digits ++ rest ∧ number digits = n := by
  unfold splitNumber at h
  rw [Option.ite_none_left_eq_some] at h
  obtain ⟨hsome, h⟩ := h
  cases h
  set digits := (cs.take width).takeWhile Char.isDigit with hdigits
  have hprefix : digits <+: cs.take width := List.takeWhile_prefix _
  have hall : digits <+: cs := hprefix.trans (List.take_prefix width cs)
  refine ⟨digits, ⟨?_, fun c hc => List.mem_takeWhile_imp hc⟩, ?_, ?_, rfl⟩
  · rwa [List.isEmpty_iff] at hsome
  · exact hprefix.length_le.trans (List.length_take_le width cs)
  · exact (List.prefix_iff_eq_append.1 hall).symm

/-- Digits that no other digit follows are read as a number. -/
theorem splitNumber_append {width : Nat} {digits rest : List Char} (hd : Digits digits)
    (hw : digits.length ≤ width) (hr : ∀ c ∈ rest.head?, c.isDigit = false) :
    splitNumber width (digits ++ rest) = some (number digits, rest) := by
  have hfront : ((digits ++ rest).take width).takeWhile Char.isDigit = digits := by
    rw [List.take_append, List.take_of_length_le hw, List.takeWhile_append_of_pos hd.decimal]
    cases rest with
    | nil => simp
    | cons c rest =>
      cases width - digits.length with
      | zero => simp
      | succ k => rw [List.take_succ_cons, List.takeWhile_cons_of_neg (by simp [hr c rfl]),
          List.append_nil]
  simp only [splitNumber, hfront]
  rw [if_neg (by simpa using hd.some), List.drop_left]
  rfl

theorem exists_of_splitYear {y : Int} {cs rest : List Char} (h : splitYear cs = some (y, rest)) :
    ∃ sign digits, (sign = [] ∧ digits.length ≤ 4 ∨ sign = ['+'] ∨ sign = ['-']) ∧
      Digits digits ∧ cs = sign ++ (digits ++ rest) ∧
      (if sign = ['-'] then -(number digits : Int) else number digits) = y := by
  unfold splitYear at h
  split at h
  · obtain ⟨⟨n, left⟩, hsplit, heq⟩ := Option.map_eq_some_iff.1 h
    cases heq
    obtain ⟨digits, hdigits, -, hcs, rfl⟩ := exists_of_splitNumber hsplit
    exact ⟨['-'], digits, .inr (.inr rfl), hdigits, congrArg _ hcs, rfl⟩
  · obtain ⟨⟨n, left⟩, hsplit, heq⟩ := Option.map_eq_some_iff.1 h
    cases heq
    obtain ⟨digits, hdigits, -, hcs, rfl⟩ := exists_of_splitNumber hsplit
    exact ⟨['+'], digits, .inr (.inl rfl), hdigits, congrArg _ hcs, rfl⟩
  · obtain ⟨⟨n, left⟩, hsplit, heq⟩ := Option.map_eq_some_iff.1 h
    cases heq
    obtain ⟨digits, hdigits, hwidth, hcs, rfl⟩ := exists_of_splitNumber hsplit
    exact ⟨[], digits, .inl ⟨rfl, hwidth⟩, hdigits, hcs, rfl⟩

namespace DateParts

variable {p : DateParts}

theorem WellFormed.splitYear (h : p.WellFormed) (hn : p.sign = [] → p.year.length ≤ 4)
    {rest : List Char} (hr : ∀ c ∈ rest.head?, c.isDigit = false) :
    splitYear (p.sign ++ (p.year ++ rest)) = some (p.yearNumber, rest) := by
  have hlong : p.year.length ≤ (p.year ++ rest).length := by simp
  obtain ⟨c, cs, hcs⟩ := List.exists_cons_of_ne_nil h.year.some
  have hc : c.isDigit := h.year.decimal c (hcs ▸ List.mem_cons_self)
  rcases h.sign with hs | hs | hs
  · rw [yearNumber, hs, List.nil_append, Text.splitYear]
    · rw [splitNumber_append h.year (hn hs) hr]
      rfl
    · rintro tail htail
      rw [hcs] at htail
      cases htail
      exact absurd hc (by decide)
    · rintro tail htail
      rw [hcs] at htail
      cases htail
      exact absurd hc (by decide)
  · rw [yearNumber, hs, List.singleton_append, Text.splitYear, splitNumber_append h.year hlong hr]
    rfl
  · rw [yearNumber, hs, List.singleton_append, Text.splitYear, splitNumber_append h.year hlong hr]
    rfl

end DateParts

theorem splitHyphen_eq_some_iff {cs rest : List Char} :
    splitHyphen cs = some rest ↔ cs = '-' :: rest := by
  unfold splitHyphen
  split
  · simp
  · rename_i hother
    exact iff_of_false nofun (hother rest)

/-- A text is read as a date exactly if it has the parts of one. -/
theorem date?_eq_some_iff {cs : List Char} {y : Int} {m d : Nat} :
    date? cs = some (y, m, d) ↔ ∃ p : DateParts, p.Legible ∧ p.chars = cs ∧
      p.yearNumber = y ∧ number p.month = m ∧ number p.day = d := by
  constructor
  · intro h
    obtain ⟨⟨year, behind⟩, hyear, h⟩ := Option.bind_eq_some_iff.1 h
    obtain ⟨afterYear, hfirst, h⟩ := Option.bind_eq_some_iff.1 h
    obtain ⟨⟨month, behind⟩, hmonth, h⟩ := Option.bind_eq_some_iff.1 h
    obtain ⟨afterMonth, hsecond, h⟩ := Option.bind_eq_some_iff.1 h
    obtain ⟨⟨day, behind⟩, hday, h⟩ := Option.bind_eq_some_iff.1 h
    rw [Option.ite_none_right_eq_some, Bool.and_eq_true, List.isEmpty_iff] at h
    obtain ⟨⟨rfl, hvalid⟩, h⟩ := h
    cases h
    obtain ⟨lead, hlead, hcs⟩ := exists_trimStart cs
    obtain ⟨sign, years, hsign, hyears, hstart, rfl⟩ := exists_of_splitYear hyear
    obtain rfl := splitHyphen_eq_some_iff.1 hfirst
    obtain ⟨gap, hgap, hafter⟩ := exists_trimStart afterYear
    obtain ⟨months, hmonths, hmonth_le, hmiddle, rfl⟩ := exists_of_splitNumber hmonth
    obtain rfl := splitHyphen_eq_some_iff.1 hsecond
    obtain ⟨space, hspace, hbehind⟩ := exists_trimStart afterMonth
    obtain ⟨days, hdays, hday_le, hend, rfl⟩ := exists_of_splitNumber hday
    rw [List.append_nil] at hend
    refine ⟨⟨lead, sign, years, gap, months, space, days⟩, ⟨⟨hlead, ?_, hyears, hgap, hmonths,
      hspace, hdays⟩, ?_, hmonth_le, hday_le, hvalid⟩, ?_, rfl, rfl, rfl⟩
    · exact hsign.imp_left And.left
    · rintro rfl
      rcases hsign with ⟨-, hnarrow⟩ | hsign | hsign
      · exact hnarrow
      · cases hsign
      · cases hsign
    · rw [hcs, hstart, hafter, hmiddle, hbehind, hend]
      rfl
  · rintro ⟨p, h, rfl, rfl, rfl, rfl⟩
    have hyear := h.splitYear h.narrow (DateParts.head?_hyphen
      (p.gap ++ (p.month ++ '-' :: (p.space ++ p.day))))
    have hmonth := splitNumber_append h.month h.month_le (DateParts.head?_hyphen (p.space ++ p.day))
    have hday : splitNumber 2 p.day = some (number p.day, []) := by
      have hend : ∀ c ∈ ([] : List Char).head?, c.isDigit = false := nofun
      have hday := splitNumber_append h.day h.day_le hend
      rwa [List.append_nil] at hday
    have hblank : ∀ c, c.isDigit → isBlank c = false := fun _ => isBlank_of_isDigit
    have hhyphen : ∀ rest, splitHyphen ('-' :: rest) = some rest := fun _ => rfl
    simp only [date?, DateParts.chars, trimStart_append h.lead (h.head?_year _), hyear,
      Option.bind_eq_bind, Option.bind_some, hhyphen,
      trimStart_append h.gap (h.month.head? hblank _), hmonth,
      trimStart_append h.space h.head?_day, hday]
    exact if_pos (by simpa using h.valid)

theorem isDate_iff {text : String} :
    isDate text ↔ ∃ p : DateParts, p.Legible ∧ p.chars = text.toList := by
  rw [isDate, Option.isSome_iff_exists]
  constructor
  · rintro ⟨⟨y, m, d⟩, h⟩
    obtain ⟨p, hlegible, hchars, -⟩ := date?_eq_some_iff.1 h
    exact ⟨p, hlegible, hchars⟩
  · rintro ⟨p, hlegible, hchars⟩
    exact ⟨_, date?_eq_some_iff.2 ⟨p, hlegible, hchars, rfl, rfl, rfl⟩⟩

instance : LawfulDate := ⟨isDate_iff⟩

end SchemaModel.Text
