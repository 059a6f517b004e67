import SchemaModel.Proofs.Coercion
import SchemaModel.Proofs.DoubleText
import SchemaModel.Libraries.Standard

/-!
Literals of floating types. The text of a default is kept and only patched: `.0` is put behind a
double without a point or an exponent, and `f` behind a float. What comes out is a token of the
target language (`DoubleToken`, `FloatToken`), behind a sign or none, which denotes the number that
the default denotes, exactly if the text has no point that no digit follows
(`Graph.coerce_floating_iff`).
-/

namespace SchemaModel

open Text Numeral

/-- The tokens of doubles with the numbers that they denote: digits with a point before the last
of them, with an exponent or without, or digits with an exponent. -/
inductive DoubleToken : List Char → ℚ → Prop where
  | point {whole fraction : List Char} (before : ∀ c ∈ whole, c.isDigit)
      (behind : Digits fraction) :
      DoubleToken (whole ++ '.' :: fraction) (scaled (whole ++ fraction) (-fraction.length))
  | pointAndExponent {whole fraction exponent : List Char} {mark : Char} {power : Int}
      (before : ∀ c ∈ whole, c.isDigit) (behind : Digits fraction)
      (marks : mark = 'e' ∨ mark = 'E') (reads : Whole exponent power) :
      DoubleToken (whole ++ '.' :: (fraction ++ mark :: exponent))
        (scaled (whole ++ fraction) (power - fraction.length))
  | exponent {digits exponent : List Char} {mark : Char} {power : Int} (before : Digits digits)
      (marks : mark = 'e' ∨ mark = 'E') (reads : Whole exponent power) :
      DoubleToken (digits ++ mark :: exponent) (scaled digits power)

/-- The tokens of floats: those of doubles, and also digits alone, with a letter behind. -/
inductive FloatToken : List Char → ℚ → Prop where
  | double {cs : List Char} {q : ℚ} (token : DoubleToken cs q) : FloatToken (cs ++ ['f']) q
  | whole {digits : List Char} (decimal : Digits digits) :
      FloatToken (digits ++ ['f']) (number digits)

/-- A token behind a sign, or without one. -/
inductive Signed (token : List Char → ℚ → Prop) : List Char → ℚ → Prop where
  | unsigned {cs : List Char} {q : ℚ} (is : token cs q) : Signed token cs q
  | plus {cs : List Char} {q : ℚ} (is : token cs q) : Signed token ('+' :: cs) q
  | minus {cs : List Char} {q : ℚ} (is : token cs q) : Signed token ('-' :: cs) (-q)

theorem signed_iff {token : List Char → ℚ → Prop} {cs : List Char} {r : ℚ} :
    Signed token cs r ↔ ∃ sign body q, IsSign sign ∧ cs = sign ++ body ∧ token body q ∧
      r = if sign = ['-'] then -q else q := by
  constructor
  · rintro (is | is | is)
    · exact ⟨[], _, _, .inl rfl, rfl, is, rfl⟩
    · exact ⟨['+'], _, _, .inr (.inl rfl), rfl, is, rfl⟩
    · exact ⟨['-'], _, _, .inr (.inr rfl), rfl, is, rfl⟩
  · rintro ⟨sign, body, q, rfl | rfl | rfl, rfl, is, rfl⟩
    · exact .unsigned is
    · exact .plus is
    · exact .minus is

namespace Numeral.Parts

/-- The point is the last of the digits. -/
def BarePoint (p : Parts) : Prop := p.point = ['.'] ∧ p.fraction = []

/-- There is a point or an exponent. -/
def Marked (p : Parts) : Prop := p.point ≠ [] ∨ p.mark ≠ []

variable {p : Parts}

theorem WellFormed.not_barePoint_iff (h : p.WellFormed) :
    ¬p.BarePoint ↔ p.point = [] ∨ p.fraction ≠ [] := by
  rcases h.point with ⟨hpoint, hfraction⟩ | hpoint
  · simp [BarePoint, hpoint]
  · simp [BarePoint, hpoint]

end Numeral.Parts

theorem doubleToken_iff {body : List Char} {q : ℚ} : DoubleToken body q ↔ ∃ p : Parts,
    p.WellFormed ∧ p.sign = [] ∧ (¬p.BarePoint ∧ p.Marked) ∧ body = p.chars ++ [] ∧
      p.magnitude = q := by
  constructor
  · intro h
    cases h with
    | @point whole fraction hwhole hfraction =>
      refine ⟨⟨[], whole, ['.'], fraction, [], [], 0⟩, ⟨.inl rfl, hwhole, .inr rfl,
        hfraction.decimal, .inr hfraction.some, .inl ⟨rfl, rfl, rfl⟩⟩, rfl,
        ⟨fun hbare => hfraction.some hbare.2, .inl (by simp)⟩, by simp [Parts.chars], ?_⟩
      rw [Parts.magnitude, Int.zero_sub]
    | @pointAndExponent whole fraction exponent mark power hwhole hfraction hmark hpower =>
      exact ⟨⟨[], whole, ['.'], fraction, [mark], exponent, power⟩, ⟨.inl rfl, hwhole, .inr rfl,
        hfraction.decimal, .inr hfraction.some, .inr ⟨by simpa using hmark, hpower⟩⟩, rfl,
        ⟨fun hbare => hfraction.some hbare.2, .inl (by simp)⟩, by simp [Parts.chars], rfl⟩
    | @exponent digits exponent mark power hdigits hmark hpower =>
      refine ⟨⟨[], digits, [], [], [mark], exponent, power⟩, ⟨.inl rfl, hdigits.decimal,
        .inl ⟨rfl, rfl⟩, List.forall_mem_nil _, .inl hdigits.some,
        .inr ⟨by simpa using hmark, hpower⟩⟩, rfl,
        ⟨fun hbare => (by cases hbare.1), .inr (by simp)⟩, by simp [Parts.chars], ?_⟩
      simp [Parts.magnitude]
  · rintro ⟨p, h, hsign, ⟨hbare, hmarked⟩, rfl, rfl⟩
    have hexponent : p.mark = [] ∧ p.exponent = [] ∧ p.power = 0 ∨
        ∃ mark, p.mark = [mark] ∧ (mark = 'e' ∨ mark = 'E') ∧ Whole p.exponent p.power := by
      rcases h.exponent with hnone | ⟨hm | hm, hpower⟩
      · exact .inl hnone
      · exact .inr ⟨_, hm, .inl rfl, hpower⟩
      · exact .inr ⟨_, hm, .inr rfl, hpower⟩
    rw [Parts.magnitude, Parts.chars, hsign]
    rcases h.point with ⟨hpoint, hfraction⟩ | hpoint
    · obtain ⟨hm, -⟩ | ⟨mark, hm, hmark, hpower⟩ := hexponent
      · exact absurd hmarked (not_or.2 ⟨not_not_intro hpoint, not_not_intro hm⟩)
      · have hwhole : Digits p.whole :=
          ⟨h.some.resolve_right (not_not_intro hfraction), h.whole⟩
        rw [hpoint, hfraction, hm]
        simpa using DoubleToken.exponent hwhole hmark hpower
    · have hfraction : Digits p.fraction := ⟨fun hnil => hbare ⟨hpoint, hnil⟩, h.fraction⟩
      obtain ⟨hm, he, hpower⟩ | ⟨mark, hm, hmark, hpower⟩ := hexponent
      · rw [hpoint, hm, he, hpower]
        simpa using DoubleToken.point h.whole hfraction
      · rw [hpoint, hm]
        simpa using DoubleToken.pointAndExponent h.whole hfraction hmark hpower

theorem floatToken_iff {body : List Char} {q : ℚ} : FloatToken body q ↔ ∃ p : Parts,
    p.WellFormed ∧ p.sign = [] ∧ ¬p.BarePoint ∧ body = p.chars ++ ['f'] ∧ p.magnitude = q := by
  constructor
  · intro h
    cases h with
    | double htoken =>
      obtain ⟨p, h, hsign, ⟨hbare, -⟩, rfl, rfl⟩ := doubleToken_iff.1 htoken
      exact ⟨p, h, hsign, hbare, by rw [List.append_nil], rfl⟩
    | @whole digits hdigits =>
      refine ⟨⟨[], digits, [], [], [], [], 0⟩, ⟨.inl rfl, hdigits.decimal, .inl ⟨rfl, rfl⟩, nofun,
        .inl hdigits.some, .inl ⟨rfl, rfl, rfl⟩⟩, rfl, nofun, by simp [Parts.chars], ?_⟩
      simp [Parts.magnitude, scaled]
  · rintro ⟨p, h, hsign, hbare, rfl, rfl⟩
    by_cases hmarked : p.Marked
    · exact .double (doubleToken_iff.2
        ⟨p, h, hsign, ⟨hbare, hmarked⟩, (List.append_nil _).symm, rfl⟩)
    · obtain ⟨hpoint, hm⟩ := not_or.1 hmarked
      obtain ⟨hpoint, hfraction⟩ := h.point.resolve_right fun hp => hpoint (by simp [hp])
      obtain ⟨hm, he, hpower⟩ := h.exponent.resolve_right fun hmark => hm (by
        rcases hmark.1 with hmark | hmark <;> simp [hmark])
      have hwhole : Digits p.whole := ⟨h.some.resolve_right (not_not_intro hfraction), h.whole⟩
      rw [Parts.magnitude, Parts.chars, hsign, hpoint, hfraction, hm, he, hpower]
      simpa [scaled] using FloatToken.whole hwhole

/-- A text with the parts of a numeral, and with `tail` behind it, is a signed token exactly if the
parts are those of one. -/
theorem signed_parts_iff {token : List Char → ℚ → Prop} {tail : List Char} (good : Parts → Prop)
    (htoken : ∀ body q, token body q ↔ ∃ p : Parts, p.WellFormed ∧ p.sign = [] ∧ good p ∧
      body = p.chars ++ tail ∧ p.magnitude = q)
    (hgood : ∀ (p : Parts) sign, good { p with sign := sign } ↔ good p) {p : Parts}
    (h : p.WellFormed) {r : ℚ} : Signed token (p.chars ++ tail) r ↔ good p ∧ r = p.value := by
  have hsigned : ∀ (q : Parts) sign, q.sign = [] →
      ({ q with sign := sign } : Parts).chars = sign ++ q.chars := by
    intro q sign hq
    rw [Parts.chars, Parts.chars, hq]
    rfl
  rw [signed_iff]
  constructor
  · rintro ⟨sign, body, _, hsign, hcs, is, rfl⟩
    obtain ⟨q, hq, hunsigned, hgoodq, rfl, rfl⟩ := (htoken _ _).1 is
    rw [← List.append_assoc, ← hsigned q sign hunsigned] at hcs
    have hformed : ({ q with sign := sign } : Parts).WellFormed :=
      ⟨hsign, hq.whole, hq.point, hq.fraction, hq.some, hq.exponent⟩
    obtain rfl := h.chars_unique hformed (List.append_cancel_right hcs)
    exact ⟨(hgood q sign).2 hgoodq, rfl⟩
  · rintro ⟨hgoodp, rfl⟩
    have hformed : ({ p with sign := [] } : Parts).WellFormed :=
      ⟨.inl rfl, h.whole, h.point, h.fraction, h.some, h.exponent⟩
    refine ⟨p.sign, ({ p with sign := [] } : Parts).chars ++ tail, p.magnitude, h.sign, ?_,
      (htoken _ _).2 ⟨_, hformed, rfl, (hgood p []).2 hgoodp, rfl, rfl⟩, rfl⟩
    rw [← List.append_assoc, ← hsigned _ p.sign rfl]

theorem Numeral.Whole.mem {cs : List Char} {n : Int} (h : Whole cs n) :
    ∀ c ∈ cs, c.isDigit ∨ c = '+' ∨ c = '-' := by
  cases h with
  | unsigned _ hdecimal => exact fun c hc => .inl (hdecimal c hc)
  | plus _ hdecimal =>
    intro c hc
    rcases List.mem_cons.1 hc with rfl | hc
    · exact .inr (.inl rfl)
    · exact .inl (hdecimal c hc)
  | minus _ hdecimal =>
    intro c hc
    rcases List.mem_cons.1 hc with rfl | hc
    · exact .inr (.inr rfl)
    · exact .inl (hdecimal c hc)

/-- A point or an exponent is what marks a number as floating. -/
theorem hasFloatMark_iff {text : String} {p : Parts} (h : p.WellFormed)
    (ht : text.toList = p.chars) : hasFloatMark text ↔ p.Marked := by
  rw [hasFloatMark, ht, List.any_eq_true]
  constructor
  · rintro ⟨c, hc, hmark⟩
    have hplain : ∀ c : Char, c.isDigit ∨ c = '+' ∨ c = '-' →
        (c = '.' || c = 'e' || c = 'E') = false := by
      rintro c (hdigit | rfl | rfl)
      · have hpoint := Parts.not_point_of_isDigit c hdigit
        have hexponent := Parts.isMark_of_isDigit c hdigit
        rw [Parts.isMark] at hexponent
        simp_all
      · rfl
      · rfl
    have hother : ¬(c.isDigit ∨ c = '+' ∨ c = '-') := by
      intro hc
      rw [hplain c hc] at hmark
      cases hmark
    simp only [Parts.chars, List.mem_append] at hc
    rcases hc with hc | hc | hc | hc | hc | hc
    · have hsign := h.sign.mem c hc
      exact absurd (.inr (by simpa using hsign)) hother
    · exact absurd (.inl (h.whole c hc)) hother
    · exact .inl (List.ne_nil_of_mem hc)
    · exact absurd (.inl (h.fraction c hc)) hother
    · exact .inr (List.ne_nil_of_mem hc)
    · rcases h.exponent with ⟨-, he, -⟩ | ⟨-, hwhole⟩
      · rw [he] at hc
        cases hc
      · exact absurd (hwhole.mem c hc) hother
  · rintro (hpoint | hm)
    · have hp := h.point.resolve_left fun hnone => hpoint hnone.1
      exact ⟨'.', by simp [Parts.chars, hp], rfl⟩
    · obtain ⟨hmark | hmark, -⟩ := h.exponent.resolve_left fun hnone => hm hnone.1
      · exact ⟨'e', by simp [Parts.chars, hmark], rfl⟩
      · exact ⟨'E', by simp [Parts.chars, hmark], rfl⟩

/-- The literal of a float is a token of its number unless the point is bare. -/
theorem float_text_iff {digits : String} {p : Parts} (h : p.WellFormed)
    (hd : digits.toList = p.chars) {r : ℚ} :
    Signed FloatToken (Literal.float digits).text.toList r ↔ ¬p.BarePoint ∧ r = p.value := by
  have htext : (Literal.float digits).text.toList = p.chars ++ ['f'] := by
    rw [Literal.text, String.toList_append, hd]
    rfl
  rw [htext]
  exact signed_parts_iff (fun p => ¬p.BarePoint) (fun _ _ => floatToken_iff)
    (fun _ _ => Iff.rfl) h

/-- The literal of a double is a token of its number unless the point is bare. -/
theorem double_text_iff {digits : String} {p : Parts} (h : p.WellFormed)
    (hd : digits.toList = p.chars) {r : ℚ} :
    Signed DoubleToken (Literal.double digits).text.toList r ↔ ¬p.BarePoint ∧ r = p.value := by
  have htoken : ∀ {q : Parts}, q.WellFormed → (Signed DoubleToken (q.chars ++ []) r ↔
      (¬q.BarePoint ∧ q.Marked) ∧ r = q.value) := fun hq =>
    signed_parts_iff (fun p => ¬p.BarePoint ∧ p.Marked) (fun _ _ => doubleToken_iff)
      (fun _ _ => Iff.rfl) hq
  by_cases hmarked : p.Marked
  · have htext : (Literal.double digits).text.toList = p.chars ++ [] := by
      rw [Literal.text, if_pos ((hasFloatMark_iff h hd).2 hmarked), hd, List.append_nil]
    rw [htext, htoken h, and_iff_left hmarked]
  · -- digits alone get a point and a zero behind them
    obtain ⟨hpoint, hm⟩ := not_or.1 hmarked
    obtain ⟨hpoint, hfraction⟩ := h.point.resolve_right fun hp => hpoint (by simp [hp])
    obtain ⟨hm, he, hpower⟩ := h.exponent.resolve_right fun hmark => hm (by
      rcases hmark.1 with hmark | hmark <;> simp [hmark])
    have htext : (Literal.double digits).text.toList =
        ({ p with point := ['.'], fraction := ['0'] } : Parts).chars ++ [] := by
      rw [Literal.text, if_neg (mt (hasFloatMark_iff h hd).1 hmarked), String.toList_append, hd]
      simp [Parts.chars, hpoint, hfraction, hm, he]
    have hzeroDigit : ∀ c ∈ ['0'], c.isDigit := List.forall_mem_singleton.2 rfl
    have hformed : ({ p with point := ['.'], fraction := ['0'] } : Parts).WellFormed :=
      ⟨h.sign, h.whole, .inr rfl, hzeroDigit, .inr (by simp), h.exponent⟩
    have hmagnitude : ({ p with point := ['.'], fraction := ['0'] } : Parts).magnitude =
        p.magnitude := by
      have hzero := scaled_zeros p.whole 1 (-1)
      rw [Parts.magnitude, Parts.magnitude, hfraction, hpower]
      simpa using hzero
    have hvalue : ({ p with point := ['.'], fraction := ['0'] } : Parts).value = p.value := by
      rw [Parts.value, Parts.value, hmagnitude]
    have hgood : ¬({ p with point := ['.'], fraction := ['0'] } : Parts).BarePoint ∧
        ({ p with point := ['.'], fraction := ['0'] } : Parts).Marked :=
      ⟨fun hbare => List.cons_ne_nil _ _ hbare.2, .inl (by simp)⟩
    rw [htext, htoken hformed, hvalue, and_iff_right hgood, and_iff_right]
    rw [h.not_barePoint_iff]
    exact .inl hpoint

namespace Json

/-- The number that a default denotes: one in a text has a double, so it is not too large. -/
inductive Amount : Json → ℚ → Prop where
  | number {n : Number} : Amount (.num n) n.decimal
  | text {text : String} {p : Parts} {x : Double} (formed : p.WellFormed)
      (trims : Trims text.toList p.chars) (finite : p.numeral.toDouble? = some x) :
      Amount (.str text) p.value

/-- The default is a text whose point is bare. -/
def BarePoint (v : Json) : Prop :=
  ∃ (text : String) (p : Parts), v = .str text ∧ p.WellFormed ∧ Trims text.toList p.chars ∧
    p.BarePoint

/-- There is one way to take a text for a numeral. -/
theorem parts_unique {cs : List Char} {p q : Parts} (hp : p.WellFormed) (hpt : Trims cs p.chars)
    (hq : q.WellFormed) (hqt : Trims cs q.chars) : p = q :=
  hp.chars_unique hq ((trim_eq_iff.2 hpt).symm.trans (trim_eq_iff.2 hqt))

theorem Amount.unique {v : Json} {q r : ℚ} (hq : v.Amount q) (hr : v.Amount r) : q = r := by
  cases hq with
  | number =>
    cases hr
    rfl
  | text hp hpt =>
    cases hr with
    | text ho hot => rw [parts_unique hp hpt ho hot]

/-- A default denotes a number exactly if it has the text of one. -/
theorem exists_amount_iff {v : Json} : (∃ q, v.Amount q) ↔ ∃ digits, v.Numeric digits := by
  constructor
  · rintro ⟨_, number | ⟨hformed, htrims, hfinite⟩⟩
    · exact ⟨_, .number⟩
    · exact ⟨_, .text htrims (read?_eq_some_iff.2 ⟨_, hformed, rfl, rfl⟩) hfinite⟩
  · rintro ⟨_, number | ⟨htrims, hread, hfinite⟩⟩
    · exact ⟨_, .number⟩
    · obtain ⟨p, hformed, rfl, rfl⟩ := read?_eq_some_iff.1 hread
      exact ⟨_, .text hformed htrims hfinite⟩

/-- The text that is kept of a default has the parts of a numeral of its number. -/
theorem Numeric.exists_parts {v : Json} {digits : String} (h : v.Numeric digits) :
    ∃ p : Parts, p.WellFormed ∧ digits.toList = p.chars ∧ v.Amount p.value ∧
      (v.BarePoint ↔ p.BarePoint) := by
  cases h with
  | @number n =>
    obtain ⟨p, hformed, hchars, hpoint, hvalue⟩ := n.exists_parts
    refine ⟨p, hformed, hchars.symm, ?_, iff_of_false ?_ (hformed.not_barePoint_iff.2 hpoint)⟩
    · rw [hvalue]
      exact .number
    · rintro ⟨_, _, hv, -⟩
      cases hv
  | @text text _ _ _ htrims hread hfinite =>
    obtain ⟨p, hformed, rfl, rfl⟩ := read?_eq_some_iff.1 hread
    refine ⟨p, hformed, String.toList_ofList, .text hformed htrims hfinite, ?_,
      fun hbare => ⟨text, p, rfl, hformed, htrims, hbare⟩⟩
    rintro ⟨_, q, ⟨⟩, hq, hqt, hbare⟩
    rwa [parts_unique hformed htrims hq hqt]

end Json

/-- The floating types, with the tokens of their literals. -/
inductive Primitive.Floating : Primitive → (List Char → ℚ → Prop) → Prop where
  | double : Floating .double DoubleToken
  | float : Floating .float FloatToken

/-- A literal of a floating type keeps the text of the default. -/
theorem Primitive.Floating.denotes_iff [Libraries] {type : Primitive} {token : List Char → ℚ → Prop}
    (h : type.Floating token) (v : Json) : ∃ make : String → Literal,
      (∀ literal, v.Denotes type literal ↔ ∃ digits, v.Numeric digits ∧ literal = make digits) ∧
      ∀ {digits : String} {p : Parts}, p.WellFormed → digits.toList = p.chars → ∀ r,
        Signed token (make digits).text.toList r ↔ ¬p.BarePoint ∧ r = p.value := by
  cases h with
  | double =>
    refine ⟨.double, fun literal => ⟨?_, ?_⟩, fun hp hd _ => double_text_iff hp hd⟩
    · rintro ⟨⟩
      exact ⟨_, ‹_›, rfl⟩
    · rintro ⟨digits, hnumeric, rfl⟩
      exact .double hnumeric
  | float =>
    refine ⟨.float, fun literal => ⟨?_, ?_⟩, fun hp hd _ => float_text_iff hp hd⟩
    · rintro ⟨⟩
      exact ⟨_, ‹_›, rfl⟩
    · rintro ⟨digits, hnumeric, rfl⟩
      exact .float hnumeric

/-- A default of a floating type is accepted exactly if it denotes a number. Its literal is a token
of the type behind a sign or none, and denotes the very number, exactly if the default is no text
with a bare point; otherwise it is no token of any number. -/
theorem Graph.coerce_floating_iff [Libraries] (g : Graph) (schema : String)
    {p : ResolvedProperty} {v : Json} {type : Primitive} {token : List Char → ℚ → Prop}
    (ht : p.type = .primitive type) (hf : type.Floating token) (hd : p.default = some v) :
    ((∃ literal, (g.coerce schema p).outcome = .ok (some literal)) ↔ ∃ q, v.Amount q) ∧
    ∀ literal q, (g.coerce schema p).outcome = .ok (some literal) → v.Amount q →
      ∀ r, Signed token literal.text.toList r ↔ ¬v.BarePoint ∧ r = q := by
  obtain ⟨make, hmake, htext⟩ := hf.denotes_iff v
  constructor
  · rw [Json.exists_amount_iff]
    constructor
    · rintro ⟨literal, h⟩
      obtain ⟨digits, hnumeric, -⟩ := (hmake literal).1 ((coerce_scalar_iff ht hd).1 h)
      exact ⟨digits, hnumeric⟩
    · rintro ⟨digits, hnumeric⟩
      exact ⟨make digits, (coerce_scalar_iff ht hd).2 ((hmake _).2 ⟨digits, hnumeric, rfl⟩)⟩
  · intro literal q h hq r
    obtain ⟨digits, hnumeric, rfl⟩ := (hmake literal).1 ((coerce_scalar_iff ht hd).1 h)
    obtain ⟨parts, hformed, hchars, hamount, hbare⟩ := hnumeric.exists_parts
    rw [htext hformed hchars, hbare, hq.unique hamount]

def floatingByDefault (type : Primitive) (text : String) : ResolvedProperty :=
  ⟨"k", .primitive type, .field .none, false, some (.str text), none, []⟩

/-- The parts of a numeral with a sign, no digit before the point, and an exponent. -/
def signedParts : Parts := ⟨['-'], [], ['.'], ['5', '0'], ['E'], ['-', '3'], -3⟩

theorem coerce_floating_iff_white_space :
    (floatingByDefault .float " -.50E-3\n").type = .primitive .float ∧
    Primitive.float.Floating FloatToken ∧
    (floatingByDefault .float " -.50E-3\n").default = some (.str " -.50E-3\n") ∧
    (Graph.coerce ⟨.empty, .empty, []⟩ "S" (floatingByDefault .float " -.50E-3\n")).outcome =
      .ok (some (.float "-.50E-3")) ∧
    Signed FloatToken (Literal.float "-.50E-3").text.toList (-1 / 2000) := by
  have hliteral : (Graph.coerce ⟨.empty, .empty, []⟩ "S"
      (floatingByDefault .float " -.50E-3\n")).outcome = .ok (some (.float "-.50E-3")) := by
    decide +kernel
  have hpower : Whole ['-', '3'] (-3) := integerText?_eq_some_iff.1 (by decide)
  have hformed : signedParts.WellFormed :=
    ⟨.inr (.inr rfl), nofun, .inr rfl, List.all_eq_true.1 rfl, .inr (by decide),
      .inr ⟨.inr rfl, hpower⟩⟩
  have htrims : Trims " -.50E-3\n".toList signedParts.chars := trim_eq_iff.1 (by decide)
  have hfinite : signedParts.numeral.toDouble?.isSome := by decide +kernel
  have hvalue : signedParts.value = -1 / 2000 := by
    have hnumber : number ['5', '0'] = 50 := by decide
    norm_num [signedParts, Parts.value, Parts.magnitude, scaled, hnumber]
  have hbare : ¬(Json.str " -.50E-3\n").BarePoint := by
    rintro ⟨_, q, ⟨⟩, hq, hqt, hbare⟩
    obtain rfl := Json.parts_unique hformed htrims hq hqt
    cases hbare.2
  obtain ⟨x, hx⟩ := Option.isSome_iff_exists.1 hfinite
  obtain ⟨-, htoken⟩ := Graph.coerce_floating_iff ⟨.empty, .empty, []⟩ "S"
    (p := floatingByDefault .float " -.50E-3\n") rfl .float rfl
  have hamount : (Json.str " -.50E-3\n").Amount signedParts.value := .text hformed htrims hx
  exact ⟨rfl, .float, rfl, hliteral, (htoken _ _ hliteral hamount _).2 ⟨hbare, hvalue.symm⟩⟩

/-- A text with a bare point is accepted, but is the token of no number. -/
theorem barePoint_not_token :
    (Graph.coerce ⟨.empty, .empty, []⟩ "S" (floatingByDefault .double "5.")).outcome =
      .ok (some (.double "5.")) ∧
    ∀ r, ¬Signed DoubleToken (Literal.double "5.").text.toList r := by
  refine ⟨by decide +kernel, fun r h => ?_⟩
  have hformed : (Parts.mk [] ['5'] ['.'] [] [] [] 0).WellFormed :=
    ⟨.inl rfl, List.all_eq_true.1 rfl, .inr rfl, nofun, .inl (by decide), .inl ⟨rfl, rfl, rfl⟩⟩
  exact ((double_text_iff hformed rfl).1 h).1 ⟨rfl, rfl⟩

end SchemaModel
