import SchemaModel.Libraries
import SchemaModel.Text.Calendar
import SchemaModel.Proofs.NumeralText

/-!
The parts of date texts: three numbers with white space before each. A text has the parts of one
date at most (`Text.DateParts.WellFormed.chars_unique`). Of the library it is asked that the dates
are the texts with parts that are legible (`Text.LawfulDate`).
-/

namespace SchemaModel

namespace Text

/-- The parts of a date text: three numbers, each behind white space, the first with a sign or
without. -/
structure DateParts where
  lead : List Char
  sign : List Char
  year : List Char
  gap : List Char
  month : List Char
  space : List Char
  day : List Char

namespace DateParts

def chars (p : DateParts) : List Char :=
  p.lead ++ (p.sign ++ (p.year ++ '-' :: (p.gap ++ (p.month ++ '-' :: (p.space ++ p.day)))))

def yearNumber (p : DateParts) : Int := if p.sign = ['-'] then -number p.year else number p.year

/-- The parts are what they are called. -/
structure WellFormed (p : DateParts) : Prop where
  lead : ∀ c ∈ p.lead, isBlank c
  sign : IsSign p.sign
  year : Digits p.year
  gap : ∀ c ∈ p.gap, isBlank c
  month : Digits p.month
  space : ∀ c ∈ p.space, isBlank c
  day : Digits p.day

/-- A date that is read. A year without a sign has at most four digits, a month and a day have at
most two. -/
structure Legible (p : DateParts) : Prop extends WellFormed p where
  narrow : p.sign = [] → p.year.length ≤ 4
  month_le : p.month.length ≤ 2
  day_le : p.day.length ≤ 2
  valid : isCalendarDay p.yearNumber (number p.month) (number p.day)

/-- A date written in full: without white space, with two digits each for month and day, and with
four for the year, or with up to ten behind a sign. -/
structure Full (p : DateParts) : Prop where
  lead : p.lead = []
  gap : p.gap = []
  space : p.space = []
  plain : p.sign = [] → p.year.length = 4
  plus : p.sign = ['+'] → 4 < p.year.length ∧ p.year.length ≤ 10
  minus : p.sign = ['-'] → 4 ≤ p.year.length ∧ p.year.length ≤ 10 ∧ number p.year ≠ 0
  month : p.month.length = 2
  day : p.day.length = 2

end DateParts

theorem isCalendarDay_iff {year : Int} {month day : Nat} : isCalendarDay year month day ↔
    inYearRange year ∧ (1 ≤ month ∧ month ≤ 12) ∧ 1 ≤ day ∧ day ≤ daysInMonth year month := by
  simp [isCalendarDay, and_assoc]

namespace DateParts

variable {p q : DateParts}

theorem head?_hyphen (rest : List Char) : ∀ c ∈ ('-' :: rest).head?, c.isDigit = false := by
  rintro _ ⟨⟩
  rfl

theorem WellFormed.head?_year (h : p.WellFormed) (rest : List Char) :
    ∀ c ∈ (p.sign ++ (p.year ++ rest)).head?, isBlank c = false := by
  rcases h.sign with hs | hs | hs
  · rw [hs]
    exact h.year.head? (fun _ => isBlank_of_isDigit) rest
  · rw [hs]
    rintro _ ⟨⟩
    rfl
  · rw [hs]
    rintro _ ⟨⟩
    rfl

theorem WellFormed.head?_day (h : p.WellFormed) : ∀ c ∈ p.day.head?, isBlank c = false := by
  have hhead := h.day.head? (fun _ => isBlank_of_isDigit) []
  rwa [List.append_nil] at hhead

theorem WellFormed.chars_unique (hp : p.WellFormed) (hq : q.WellFormed)
    (h : p.chars = q.chars) : p = q := by
  obtain ⟨hlead, h⟩ := span_unique hp.lead hq.lead (hp.head?_year _) (hq.head?_year _) h
  obtain ⟨hsign, h⟩ := span_unique hp.sign.mem hq.sign.mem (hp.year.head? isSign_of_isDigit _)
    (hq.year.head? isSign_of_isDigit _) h
  obtain ⟨hyear, h⟩ := span_unique hp.year.decimal hq.year.decimal (head?_hyphen _)
    (head?_hyphen _) h
  obtain ⟨hgap, h⟩ := span_unique hp.gap hq.gap (hp.month.head? (fun _ => isBlank_of_isDigit) _)
    (hq.month.head? (fun _ => isBlank_of_isDigit) _) (List.tail_eq_of_cons_eq h)
  obtain ⟨hmonth, h⟩ := span_unique hp.month.decimal hq.month.decimal (head?_hyphen _)
    (head?_hyphen _) h
  obtain ⟨hspace, hday⟩ := span_unique hp.space hq.space hp.head?_day hq.head?_day
    (List.tail_eq_of_cons_eq h)
  cases p
  cases q
  simp_all

end DateParts

/-- The dates are the texts that have legible parts. -/
class LawfulDate [Libraries] : Prop where
  isDate_iff : ∀ {text : String},
    Libraries.isDate text ↔ ∃ p : DateParts, p.Legible ∧ p.chars = text.toList

end Text

end SchemaModel
