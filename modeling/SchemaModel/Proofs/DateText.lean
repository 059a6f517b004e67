import SchemaModel.Proofs.Coercion
import SchemaModel.Proofs.Libraries.Dates

/-!
Defaults that are dates. A text is read liberally, as three numbers with white space before each
(`Text.DateParts.Legible`), and written as it is into a call that parses a local date, which takes
numbers of fixed width only (`Text.LocalDate`). The call accepts a default exactly if it is written
in full (`Text.DateParts.Full`), and then it gives the day that was read
(`Graph.coerce_date_iff`).
-/

namespace SchemaModel

namespace Text

/-- The year of a local date: four digits, or up to ten behind a sign. A plus needs more than four,
and there is no year minus zero. -/
inductive LocalYear : List Char → Int → Prop where
  | plain {digits : List Char} (decimal : Digits digits) (four : digits.length = 4) :
      LocalYear digits (number digits)
  | plus {digits : List Char} (decimal : Digits digits) (five : 4 < digits.length)
      (ten : digits.length ≤ 10) : LocalYear ('+' :: digits) (number digits)
  | minus {digits : List Char} (decimal : Digits digits) (four : 4 ≤ digits.length)
      (ten : digits.length ≤ 10) (some : number digits ≠ 0) :
      LocalYear ('-' :: digits) (-number digits)

/-- The texts that a parser of local dates in the extended ISO format accepts, with the days that
they name. -/
inductive LocalDate : List Char → Int → Nat → Nat → Prop where
  | mk {years months days : List Char} {year : Int} (first : LocalYear years year)
      (month : Digits months) (two_month : months.length = 2) (day : Digits days)
      (two_day : days.length = 2) (range : -999999999 ≤ year ∧ year ≤ 999999999)
      (month_valid : 1 ≤ number months ∧ number months ≤ 12)
      (day_valid : 1 ≤ number days ∧ number days ≤ daysInMonth year (number months)) :
      LocalDate (years ++ '-' :: (months ++ '-' :: days)) year (number months) (number days)

theorem DateParts.Full.chars_eq {p : DateParts} (h : p.Full) :
    p.chars = (p.sign ++ p.year) ++ '-' :: (p.month ++ '-' :: p.day) := by
  rw [DateParts.chars, h.lead, h.gap, h.space]
  simp

/-- The text of a local date has the parts of one that is written in full. -/
theorem LocalDate.exists_parts {cs : List Char} {y : Int} {m d : Nat} (h : LocalDate cs y m d) :
    ∃ p : DateParts, p.WellFormed ∧ p.Full ∧ p.chars = cs ∧ p.yearNumber = y ∧
      number p.month = m ∧ number p.day = d := by
  cases h with
  | @mk years months days _ hfirst hmonth htwo_month hday htwo_day =>
    have hfull : ∃ sign digits, years = sign ++ digits ∧
        (DateParts.mk [] sign digits [] months [] days).WellFormed ∧
        (DateParts.mk [] sign digits [] months [] days).Full ∧
        (DateParts.mk [] sign digits [] months [] days).yearNumber = y := by
      cases hfirst with
      | plain hdecimal hfour =>
        exact ⟨[], years, rfl, ⟨nofun, .inl rfl, hdecimal, nofun, hmonth, nofun, hday⟩,
          ⟨rfl, rfl, rfl, fun _ => hfour, nofun, nofun, htwo_month, htwo_day⟩, rfl⟩
      | @plus digits hdecimal hfive hten =>
        exact ⟨['+'], digits, rfl, ⟨nofun, .inr (.inl rfl), hdecimal, nofun, hmonth, nofun, hday⟩,
          ⟨rfl, rfl, rfl, nofun, fun _ => ⟨hfive, hten⟩, nofun, htwo_month, htwo_day⟩, rfl⟩
      | @minus digits hdecimal hfour hten hsome =>
        exact ⟨['-'], digits, rfl, ⟨nofun, .inr (.inr rfl), hdecimal, nofun, hmonth, nofun, hday⟩,
          ⟨rfl, rfl, rfl, nofun, nofun, fun _ => ⟨hfour, hten, hsome⟩, htwo_month, htwo_day⟩, rfl⟩
    obtain ⟨sign, digits, rfl, hformed, hfull, hyear⟩ := hfull
    exact ⟨_, hformed, hfull, hfull.chars_eq, hyear, rfl, rfl⟩

theorem LocalDate.ten_le_length {cs : List Char} {y : Int} {m d : Nat} (h : LocalDate cs y m d) :
    10 ≤ cs.length := by
  cases h with
  | mk hfirst _ htwo_month _ htwo_day =>
    simp only [List.length_append, List.length_cons, htwo_month, htwo_day]
    cases hfirst with
    | plain _ hfour => omega
    | plus _ hfive =>
      rw [List.length_cons]
      omega
    | minus _ hfour =>
      rw [List.length_cons]
      omega

/-- Of the dates that are read, those written in full are local dates. -/
theorem localDate_iff {p : DateParts} (h : p.Legible) {y : Int} {m d : Nat} :
    LocalDate p.chars y m d ↔
      p.Full ∧ p.yearNumber = y ∧ number p.month = m ∧ number p.day = d := by
  constructor
  · intro hlocal
    obtain ⟨q, hformed, hfull, hchars, hday⟩ := hlocal.exists_parts
    obtain rfl := hformed.chars_unique h.toWellFormed hchars
    exact ⟨hfull, hday⟩
  · rintro ⟨hfull, rfl, rfl, rfl⟩
    obtain ⟨hrange, hmonth_valid, hday_valid⟩ := isCalendarDay_iff.1 h.valid
    have hyear : LocalYear (p.sign ++ p.year) p.yearNumber := by
      rw [DateParts.yearNumber]
      rcases h.sign with hs | hs | hs
      · rw [hs]
        exact .plain h.year (hfull.plain hs)
      · rw [hs]
        exact .plus h.year (hfull.plus hs).1 (hfull.plus hs).2
      · rw [hs]
        obtain ⟨hfour, hten, hsome⟩ := hfull.minus hs
        exact .minus h.year hfour hten hsome
    rw [hfull.chars_eq]
    rw [inYearRange, Bool.and_eq_true, decide_eq_true_eq, decide_eq_true_eq] at hrange
    exact .mk hyear h.month hfull.month h.day hfull.day (by omega) hmonth_valid hday_valid

/-- Every local date whose year a default can have is read. -/
theorem LocalDate.exists_legible {cs : List Char} {y : Int} {m d : Nat} (h : LocalDate cs y m d)
    (hy : inYearRange y) : ∃ p : DateParts, p.Legible ∧ p.chars = cs := by
  have hvalid : isCalendarDay y m d := by
    cases h with
    | mk _ _ _ _ _ _ hmonth_valid hday_valid =>
      exact isCalendarDay_iff.2 ⟨hy, hmonth_valid, hday_valid⟩
  obtain ⟨p, hformed, hfull, hchars, rfl, rfl, rfl⟩ := h.exists_parts
  exact ⟨p, ⟨hformed, fun hs => (hfull.plain hs).le, hfull.month.le, hfull.day.le, hvalid⟩, hchars⟩

end Text

open Text

/-- A text is accepted as the default of a date exactly if it is legible, and is written as it is
into the call that parses it. The call accepts it exactly if it is written in full, and then finds
the day that it names. No local date of a year within range is refused. -/
theorem Graph.coerce_date_iff [Libraries] [LawfulDate] (g : Graph) (schema : String)
    {p : ResolvedProperty} {text : String} (ht : p.type = .primitive .date)
    (hd : p.default = some (.str text)) :
    (∀ literal, (g.coerce schema p).outcome = .ok (some literal) ↔
      literal = .date text ∧ ∃ parts : DateParts, parts.Legible ∧ parts.chars = text.toList) ∧
    (Literal.date text).text = "java.time.LocalDate.parse(" ++ quote text ++ ")" ∧
    (∀ parts : DateParts, parts.Legible → parts.chars = text.toList → ∀ y m d,
      LocalDate text.toList y m d ↔ parts.Full ∧ parts.yearNumber = y ∧
        number parts.month = m ∧ number parts.day = d) ∧
    ∀ y m d, LocalDate text.toList y m d → inYearRange y →
      (g.coerce schema p).outcome = .ok (some (.date text)) := by
  have haccepted : ∀ literal, (g.coerce schema p).outcome = .ok (some literal) ↔
      literal = .date text ∧ ∃ parts : DateParts, parts.Legible ∧ parts.chars = text.toList := by
    intro literal
    rw [coerce_scalar_iff ht hd, ← LawfulDate.isDate_iff]
    constructor
    · rintro ⟨⟩
      exact ⟨rfl, ‹_›⟩
    · rintro ⟨rfl, hdate⟩
      exact .date hdate
  refine ⟨haccepted, rfl, ?_, ?_⟩
  · intro parts hlegible hchars y m d
    rw [← hchars]
    exact localDate_iff hlegible
  · intro y m d hlocal hy
    exact (haccepted _).2 ⟨rfl, hlocal.exists_legible hy⟩

def dateByDefault (text : String) : ResolvedProperty :=
  ⟨"k", .primitive .date, .field .none, false, some (.str text), none, []⟩

theorem coerce_date_iff_before_first_year :
    (dateByDefault "-0044-02-29").type = .primitive .date ∧
    (dateByDefault "-0044-02-29").default = some (.str "-0044-02-29") ∧
    (Graph.coerce ⟨.empty, .empty, []⟩ "S" (dateByDefault "-0044-02-29")).outcome =
      .ok (some (.date "-0044-02-29")) ∧
    LocalDate "-0044-02-29".toList (-44) 2 29 := by
  obtain ⟨-, -, hlocal, haccepted⟩ := Graph.coerce_date_iff ⟨.empty, .empty, []⟩ "S"
    (p := dateByDefault "-0044-02-29") rfl rfl
  have hdate : date? "-0044-02-29".toList = some (-44, 2, 29) := by decide +kernel
  obtain ⟨parts, hlegible, hchars, hday⟩ := date?_eq_some_iff.1 hdate
  have hparts : parts = ⟨[], ['-'], "0044".toList, [], "02".toList, [], "29".toList⟩ :=
    hlegible.chars_unique ⟨nofun, .inr (.inr rfl), ⟨by decide, List.all_eq_true.1 rfl⟩, nofun,
      ⟨by decide, List.all_eq_true.1 rfl⟩, nofun, ⟨by decide, List.all_eq_true.1 rfl⟩⟩
      (by rw [hchars]; decide)
  have hfull : parts.Full := by
    rw [hparts]
    exact ⟨rfl, rfl, rfl, by decide, by decide, by decide, rfl, rfl⟩
  have hread := (hlocal parts hlegible hchars (-44) 2 29).2 ⟨hfull, hday⟩
  exact ⟨rfl, rfl, haccepted _ _ _ hread (by decide), hread⟩

/-- A month of one digit is read, but is not that of a local date. -/
theorem shortMonth_not_localDate :
    (Graph.coerce ⟨.empty, .empty, []⟩ "S" (dateByDefault "2024-1-05")).outcome =
      .ok (some (.date "2024-1-05")) ∧
    ∀ y m d, ¬LocalDate "2024-1-05".toList y m d := by
  refine ⟨by decide +kernel, fun y m d h => ?_⟩
  have hlength := h.ten_le_length
  revert hlength
  decide

end SchemaModel
