import Mathlib.Data.Option.Basic
import Mathlib.Logic.Function.Basic
import SchemaModel.Literal
import SchemaModel.Validation

/-!
Reading string literals. `Text.readLiteral` reads one by the rules of the language: eight escapes,
the last by four hexadecimal digits, no line break and no dollar sign that would start a template.
Its value is a string of UTF-16 code units, in which a character outside the basic plane is a pair.

A quoted text is read back as what it was, whatever follows it, and inside the quotes nothing has
a meaning of its own (`Text.readLiteral_quote`). So a default or a pattern stays in its literal.
-/

namespace SchemaModel

namespace Text

/-- The UTF-16 code units of a character. -/
def units (c : Char) : List Nat :=
  if c.toNat < 0x10000 then [c.toNat]
  else [0xD800 + (c.toNat - 0x10000) / 0x400, 0xDC00 + (c.toNat - 0x10000) % 0x400]

/-- The characters of code units, unless a surrogate stands alone. -/
def ofUnits? : List Nat → Option (List Char)
  | [] => some []
  | [unit] => if unit.isValidChar then some [Char.ofNat unit] else none
  | unit :: next :: rest =>
    if unit.isValidChar then (ofUnits? (next :: rest)).map (Char.ofNat unit :: ·)
    else if 0xD800 ≤ unit ∧ unit < 0xDC00 ∧ 0xDC00 ≤ next ∧ next < 0xE000 then
      (ofUnits? rest).map (Char.ofNat (0x10000 + (unit - 0xD800) * 0x400 + (next - 0xDC00)) :: ·)
    else none

def hexValue? (c : Char) : Option Nat :=
  if '0' ≤ c ∧ c ≤ '9' then some (c.toNat - 48)
  else if 'a' ≤ c ∧ c ≤ 'f' then some (c.toNat - 87)
  else if 'A' ≤ c ∧ c ≤ 'F' then some (c.toNat - 55)
  else none

/-- The code unit with four hexadecimal digits. -/
def unit? (a b c d : Char) : Option Nat := do
  let a ← hexValue? a
  let b ← hexValue? b
  let c ← hexValue? c
  let d ← hexValue? d
  return ((a * 16 + b) * 16 + c) * 16 + d

/-- The character for which another one stands behind a backslash. -/
def escape? : Char → Option Char
  | '\\' => some '\\'
  | '"' => some '"'
  | '$' => some '$'
  | 'n' => some '\n'
  | 'r' => some '\r'
  | 't' => some '\t'
  | 'b' => some '\x08'
  | _ => none

/-- The code units of a literal up to its closing quote, and what follows it. -/
def readUnits : List Char → Option (List Nat × List Char)
  | [] => none
  | '"' :: rest => some ([], rest)
  | '\\' :: 'u' :: a :: b :: c :: d :: rest => do
    let unit ← unit? a b c d
    let (more, rest) ← readUnits rest
    return (unit :: more, rest)
  | '\\' :: c :: rest => do
    let escaped ← escape? c
    let (more, rest) ← readUnits rest
    return (units escaped ++ more, rest)
  | c :: rest => do
    guard (c ≠ '\\' ∧ c ≠ '$' ∧ c ≠ '\n' ∧ c ≠ '\r')
    let (more, rest) ← readUnits rest
    return (units c ++ more, rest)

/-- The value of the literal with which a text begins, and the text behind it. -/
def readLiteral : List Char → Option (String × List Char)
  | '"' :: rest => do
    let (units, rest) ← readUnits rest
    let value ← ofUnits? units
    return (String.ofList value, rest)
  | _ => none

example : readLiteral "\"\\ud83d\\uDE00\\\\\" + x".toList = some ("😀\\", " + x".toList) := by
  decide +kernel

example : readLiteral "\"$x\"".toList = none := by decide +kernel

/-- How a character is written: by a mark behind a backslash, by its code, or as itself. -/
inductive Writes (c : Char) : List Char → Prop where
  | mark {mark : Char} (stands : escape? mark = some c) : Writes c ['\\', mark]
  | code (control : isControl c) : Writes c ('\\' :: 'u' :: Json.hex4 c.toNat)
  | plain (backslash : c ≠ '\\') (quote : c ≠ '"') (dollar : c ≠ '$')
      (printed : isControl c = false) : Writes c [c]

theorem quoteChar_writes (c : Char) : Writes c (quoteChar c) := by
  unfold quoteChar
  split
  · rename_i h
    exact .mark (by rw [h]; rfl)
  split
  · rename_i h
    exact .mark (by rw [h]; rfl)
  split
  · rename_i h
    exact .mark (by rw [h]; rfl)
  split
  · rename_i h
    exact .mark (by rw [h]; rfl)
  split
  · rename_i h
    exact .mark (by rw [h]; rfl)
  split
  · rename_i h
    exact .mark (by rw [h]; rfl)
  split
  · rename_i h
    exact .mark (by rw [h]; rfl)
  split
  · rename_i hcontrol
    exact .code hcontrol
  · rename_i hbackslash hquote hdollar _ _ _ _ hcontrol
    exact .plain hbackslash hquote hdollar (by simpa using hcontrol)

/-- A mark is one of seven characters. -/
theorem mem_marks_of_escape? {mark c : Char} (h : escape? mark = some c) :
    mark ∈ ['\\', '"', '$', 'n', 'r', 't', 'b'] := by
  unfold escape? at h
  split at h
  case h_8 => cases h
  all_goals simp

theorem hexValue?_hexDigit (n : Nat) : hexValue? (Json.hexDigit n) = some (n % 16) := by
  have h : ∀ d < 16, hexValue? ("0123456789abcdef".toList.getD d '0') = some d := by decide
  exact h _ (Nat.mod_lt _ (by decide))

theorem unit?_hex {n : Nat} (h : n < 0x10000) :
    unit? (Json.hexDigit (n / 4096)) (Json.hexDigit (n / 256)) (Json.hexDigit (n / 16))
      (Json.hexDigit n) = some n := by
  simp only [unit?, hexValue?_hexDigit, Option.bind_eq_bind, Option.bind_some, Option.pure_def,
    Option.some.injEq]
  omega

theorem toNat_lt_of_isControl {c : Char} (h : isControl c) : c.toNat < 0x10000 := by
  simp only [isControl, Bool.or_eq_true, Bool.and_eq_true, decide_eq_true_eq] at h
  omega

/-- Of a quoted text the first character is read first. -/
theorem readUnits_quoteChar (c : Char) (rest : List Char) :
    readUnits (quoteChar c ++ rest) =
      (readUnits rest).map fun (more, rest) => (units c ++ more, rest) := by
  have hwrites := quoteChar_writes c
  generalize quoteChar c = written at hwrites
  cases hwrites with
  | @mark m stands =>
    have hu : m ≠ 'u' := by
      rintro rfl
      cases stands
    rw [List.cons_append, List.cons_append, List.nil_append, readUnits, stands]
    · cases readUnits rest with
      | none => rfl
      | some found => rfl
    · intro _ _ _ _ _ h
      exact absurd h hu
  | code control =>
    have hn := toNat_lt_of_isControl control
    rw [units, if_pos hn]
    simp only [Json.hex4, List.cons_append, List.nil_append, readUnits, unit?_hex hn,
      Option.bind_eq_bind, Option.bind_some]
    cases readUnits rest with
    | none => rfl
    | some found => rfl
  | plain backslash quote dollar printed =>
    have hline : c ≠ '\n' ∧ c ≠ '\r' := by
      constructor
      · rintro rfl
        cases printed
      · rintro rfl
        cases printed
    rw [List.cons_append, List.nil_append, readUnits]
    · rw [guard, if_pos ⟨backslash, dollar, hline⟩]
      cases readUnits rest with
      | none => rfl
      | some found => rfl
    · exact quote
    · intro _ _ _ _ _ h
      exact absurd h backslash
    · intro _ _ h
      exact absurd h backslash

theorem readUnits_quoted (cs rest : List Char) :
    readUnits (cs.flatMap quoteChar ++ '"' :: rest) = some (cs.flatMap units, rest) := by
  induction cs with
  | nil => rfl
  | cons c cs ih =>
    rw [List.flatMap_cons, List.append_assoc, readUnits_quoteChar, ih]
    rfl

theorem ofUnits?_units (c : Char) (rest : List Nat) :
    ofUnits? (units c ++ rest) = (ofUnits? rest).map (c :: ·) := by
  have hvalid : c.toNat.isValidChar := c.valid
  have hself : Char.ofNat c.toNat = c := Char.ofNat_toNat c
  unfold units
  by_cases hsmall : c.toNat < 0x10000
  · rw [if_pos hsmall]
    cases rest with
    | nil => simp [ofUnits?, hvalid, hself]
    | cons next rest => simp [ofUnits?, hvalid, hself]
  · rw [if_neg hsmall]
    have hbelow : c.toNat < 0x110000 := by
      rcases hvalid with h | h <;> omega
    have hhigh : ¬(0xD800 + (c.toNat - 0x10000) / 0x400).isValidChar := by
      unfold Nat.isValidChar
      omega
    have hpair : 0x10000 + (0xD800 + (c.toNat - 0x10000) / 0x400 - 0xD800) * 0x400 +
        (0xDC00 + (c.toNat - 0x10000) % 0x400 - 0xDC00) = c.toNat := by omega
    rw [List.cons_append, List.cons_append, List.nil_append, ofUnits?, if_neg hhigh,
      if_pos (by omega), hpair, hself]

theorem ofUnits?_flatMap (cs : List Char) : ofUnits? (cs.flatMap units) = some cs := by
  induction cs with
  | nil => rfl
  | cons c cs ih => rw [List.flatMap_cons, ofUnits?_units, ih, Option.map_some]

theorem readLiteral_quoteChars (cs rest : List Char) :
    readLiteral (quoteChars cs ++ rest) = some (String.ofList cs, rest) := by
  have hquoted : quoteChars cs ++ rest = '"' :: (cs.flatMap quoteChar ++ '"' :: rest) := by
    simp [quoteChars]
  rw [hquoted, readLiteral, readUnits_quoted]
  simp only [Option.bind_eq_bind, Option.bind_some, ofUnits?_flatMap]
  rfl

/-- The number of backslashes at the end of a text. -/
def backslashes (cs : List Char) : Nat := (cs.reverse.takeWhile (· = '\\')).length

theorem backslashes_concat (cs : List Char) (c : Char) :
    backslashes (cs ++ [c]) = if c = '\\' then backslashes cs + 1 else 0 := by
  unfold backslashes
  rw [List.reverse_append, List.reverse_singleton, List.singleton_append]
  by_cases h : c = '\\'
  · rw [if_pos h, List.takeWhile_cons_of_pos (by simpa using h), List.length_cons]
  · rw [if_neg h, List.takeWhile_cons_of_neg (by simpa using h), List.length_nil]


theorem printed_of_mem_hex4 {n : Nat} {c : Char} (h : c ∈ Json.hex4 n) :
    c ≠ '\\' ∧ c ≠ '"' ∧ c ≠ '$' ∧ isControl c = false := by
  have hdigit : ∀ d < 16, ∀ c, c = "0123456789abcdef".toList.getD d '0' →
      c ≠ '\\' ∧ c ≠ '"' ∧ c ≠ '$' ∧ isControl c = false := by
    rintro d hd c rfl
    revert d
    decide
  have hsome : ∃ k, c = Json.hexDigit k := by
    simp only [Json.hex4, List.mem_cons, List.not_mem_nil, or_false] at h
    rcases h with h | h | h | h
    · exact ⟨_, h⟩
    · exact ⟨_, h⟩
    · exact ⟨_, h⟩
    · exact ⟨_, h⟩
  obtain ⟨k, hk⟩ := hsome
  exact hdigit _ (Nat.mod_lt k (by decide)) c hk

theorem Writes.printed {c x : Char} {written : List Char} (h : Writes c written)
    (hx : x ∈ written) : isControl x = false := by
  cases h with
  | mark stands =>
    have hmarks : ['\\', '"', '$', 'n', 'r', 't', 'b'].all fun mark => !isControl mark := by decide
    rcases List.mem_cons.1 hx with rfl | hx
    · rfl
    · rw [List.mem_singleton.1 hx]
      simpa using List.all_eq_true.1 hmarks _ (mem_marks_of_escape? stands)
  | code control =>
    rcases List.mem_cons.1 hx with rfl | hx
    · rfl
    · rcases List.mem_cons.1 hx with rfl | hx
      · rfl
      · exact (printed_of_mem_hex4 hx).2.2.2
  | plain backslash quote dollar printed =>
    rwa [List.mem_singleton.1 hx]

/-- A character that ends a literal or starts a template. -/
def IsSyntax (c : Char) : Prop := c = '"' ∨ c = '$'

instance : DecidablePred IsSyntax := fun _ => inferInstanceAs (Decidable (_ ∨ _))

/-- A character that is written where none is escaped leaves none escaped behind it, and what would
have a meaning in it is escaped. -/
theorem Writes.escaped {c : Char} {written before : List Char} (h : Writes c written)
    (hb : backslashes before % 2 = 0) :
    backslashes (before ++ written) % 2 = 0 ∧
      ∀ pre x post, written = pre ++ x :: post → IsSyntax x →
        backslashes (before ++ pre) % 2 = 1 := by
  cases h with
  | @mark m stands =>
    have hsplit : before ++ ['\\', m] = before ++ ['\\'] ++ [m] := by simp
    refine ⟨?_, ?_⟩
    · rw [hsplit, backslashes_concat, backslashes_concat, if_pos rfl]
      split
      · omega
      · rfl
    · intro pre x post hw hx
      cases pre with
      | nil =>
        cases hw
        rcases hx with hx | hx <;> cases hx
      | cons first pre =>
        obtain ⟨rfl, hw⟩ := List.cons_eq_cons.1 hw
        obtain rfl : pre = [] := by
          have hlength := congrArg List.length hw
          simp only [List.length_append, List.length_cons, List.length_nil] at hlength
          exact List.length_eq_zero_iff.1 (by omega)
        rw [backslashes_concat, if_pos rfl]
        omega
  | code control =>
    have hlast : before ++ '\\' :: 'u' :: Json.hex4 c.toNat =
        before ++ ['\\', 'u', Json.hexDigit (c.toNat / 4096), Json.hexDigit (c.toNat / 256),
          Json.hexDigit (c.toNat / 16)] ++ [Json.hexDigit c.toNat] := by simp [Json.hex4]
    have hdigit : Json.hexDigit c.toNat ≠ '\\' :=
      (printed_of_mem_hex4 (n := c.toNat) (by simp [Json.hex4])).1
    refine ⟨?_, ?_⟩
    · rw [hlast, backslashes_concat, if_neg hdigit]
    · intro pre x post hw hx
      have hm : x ∈ '\\' :: 'u' :: Json.hex4 c.toNat := by simp [hw]
      rcases List.mem_cons.1 hm with rfl | hm
      · rcases hx with hx | hx <;> cases hx
      rcases List.mem_cons.1 hm with rfl | hm
      · rcases hx with hx | hx <;> cases hx
      · obtain ⟨-, hquote, hdollar, -⟩ := printed_of_mem_hex4 hm
        exact absurd hx (not_or.2 ⟨hquote, hdollar⟩)
  | plain backslash quote dollar printed =>
    refine ⟨by rw [backslashes_concat, if_neg backslash], ?_⟩
    intro pre x post hw hx
    have hm : x ∈ [c] := by rw [hw]; simp
    rw [List.mem_singleton.1 hm] at hx
    exact absurd hx (not_or.2 ⟨quote, dollar⟩)

/-- In quoted text each quote and each dollar sign is escaped. -/
theorem quoted_escaped {cs before pre post : List Char} {x : Char}
    (hb : backslashes before % 2 = 0) (h : cs.flatMap quoteChar = pre ++ x :: post)
    (hx : IsSyntax x) : backslashes (before ++ pre) % 2 = 1 := by
  induction cs generalizing before pre with
  | nil => simp at h
  | cons c cs ih =>
    obtain ⟨hafter, hinside⟩ := (quoteChar_writes c).escaped hb
    rw [List.flatMap_cons] at h
    rcases List.append_eq_append_iff.1 h with ⟨pre', rfl, hrest⟩ | ⟨within, hw, hrest⟩
    · rw [← List.append_assoc]
      exact ih hafter hrest
    · cases within with
      | nil =>
        rw [List.append_nil] at hw
        rw [← hw, ← List.append_nil (before ++ quoteChar c)]
        exact ih hafter hrest.symm
      | cons y within =>
        obtain ⟨rfl, -⟩ := List.cons_eq_cons.1 hrest
        exact hinside _ _ _ hw hx

/-- No character of the text ends a literal or starts a template. -/
def Plain (text : String) : Prop := ∀ c ∈ text.toList, ¬IsSyntax c

instance (text : String) : Decidable (Plain text) :=
  List.decidableBAll (fun c => ¬IsSyntax c) text.toList

theorem Plain.append {a b : String} (ha : Plain a) (hb : Plain b) : Plain (a ++ b) := by
  intro c hc
  rw [String.toList_append, List.mem_append] at hc
  exact hc.elim (ha c) (hb c)

/-- Code around one string literal. -/
def Embeds (text value : String) : Prop :=
  ∃ before after, text = before ++ quote value ++ after ∧ Plain before ∧ Plain after

theorem Embeds.around {text value opening closing : String} (h : Embeds text value)
    (ho : Plain opening) (hc : Plain closing) : Embeds (opening ++ text ++ closing) value := by
  obtain ⟨before, after, rfl, hbefore, hafter⟩ := h
  refine ⟨opening ++ before, after ++ closing, ?_, ho.append hbefore, hafter.append hc⟩
  simp only [String.append_assoc]

theorem embeds_quote (value : String) : Embeds (quote value) value :=
  ⟨"", "", by simp, by decide +kernel, by decide +kernel⟩

theorem embeds_parsedBy {function : String} (h : Plain function) (value : String) :
    Embeds (Literal.parsedBy function value) value :=
  (embeds_quote value).around (h.append (by decide +kernel)) (by decide +kernel)

end Text

open Text

/-- The text that stands in a literal as a string. -/
def Literal.quoted? : Literal → Option String
  | string value => some value
  | decimal digits => some digits
  | date text => some text
  | dateTime text => some text
  | uuid text => some text
  | uri text => some text
  | _ => none

theorem Literal.embeds_text {l : Literal} {value : String} (h : l.quoted? = some value) :
    Embeds l.text value := by
  cases l with
  | string text =>
    cases h
    exact embeds_quote value
  | decimal digits =>
    cases h
    exact embeds_parsedBy (by decide +kernel) value
  | date text =>
    cases h
    exact embeds_parsedBy (by decide +kernel) value
  | dateTime text =>
    cases h
    exact embeds_parsedBy (by decide +kernel) value
  | uuid text =>
    cases h
    exact embeds_parsedBy (by decide +kernel) value
  | uri text =>
    cases h
    exact embeds_parsedBy (by decide +kernel) value
  | _ => cases h

theorem DefaultValue.embeds_text {d : DefaultValue} {l : Literal} {value : String}
    (hl : d.literal? = some l) (h : l.quoted? = some value) : Embeds d.text value := by
  cases d with
  | literal other =>
    cases hl
    exact Literal.embeds_text h
  | present other =>
    cases hl
    exact (Literal.embeds_text h).around (by decide +kernel) (by decide +kernel)
  | undefined => cases hl
  | null => cases hl

theorem Check.embeds_pattern (pattern : String) (dialect : Dialect) :
    Embeds ((Check.pattern pattern).text dialect) pattern := by
  have harguments : Embeds (Check.pattern pattern).arguments pattern :=
    (embeds_quote pattern).around (by decide +kernel) (by decide +kernel)
  have hname : Plain ("@" ++ (dialect.package ++ ".constraints." ++ "Pattern")) := by
    cases dialect <;> decide +kernel
  have hnone : Plain "" := by decide +kernel
  have h := harguments.around hname hnone
  rwa [String.append_empty] at h

namespace Text

theorem toList_quote (s : String) : (quote s).toList = quoteChars s.toList := String.toList_ofList

/-- A quoted text is read back as what it was, whatever follows it. Between its outer quotes there
is no control character, and each quote and each dollar sign has an odd number of backslashes before
it. So two texts are never quoted alike, and a default or a pattern is written as code around one
string literal whose value it is. -/
theorem quote_contained :
    (∀ (s : String) (rest : List Char),
      readLiteral ((quote s).toList ++ rest) = some (s, rest)) ∧
    (∀ s : String, ∃ body, (quote s).toList = '"' :: body ++ ['"'] ∧
      (∀ c ∈ body, isControl c = false) ∧
      ∀ before c after, body = before ++ c :: after → c = '"' ∨ c = '$' →
        backslashes before % 2 = 1) ∧
    Function.Injective quote ∧
    (∀ (d : DefaultValue) (l : Literal) (value : String), d.literal? = some l →
      l.quoted? = some value → Embeds d.text value) ∧
    ∀ pattern dialect, Embeds ((Check.pattern pattern).text dialect) pattern := by
  have hread : ∀ (s : String) (rest : List Char),
      readLiteral ((quote s).toList ++ rest) = some (s, rest) := by
    intro s rest
    rw [toList_quote, readLiteral_quoteChars, String.ofList_toList]
  refine ⟨hread, ?_, ?_, fun _ _ _ hl h => DefaultValue.embeds_text hl h, Check.embeds_pattern⟩
  · intro s
    refine ⟨s.toList.flatMap quoteChar, toList_quote s, ?_, ?_⟩
    · intro c hc
      obtain ⟨x, -, hx⟩ := List.mem_flatMap.1 hc
      exact (quoteChar_writes x).printed hx
    · intro before c after hbody hc
      rw [← List.nil_append before]
      exact quoted_escaped rfl hbody hc
  · intro a b hab
    have ha := hread a []
    rw [hab, hread b []] at ha
    cases ha
    rfl

end Text

end SchemaModel
