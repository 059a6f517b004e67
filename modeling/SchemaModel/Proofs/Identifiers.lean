import Mathlib.Data.List.Basic
import SchemaModel.Proofs.Naming

/-!
The constants of enums are identifiers (`enumConstant_isIdentifier`), and stay identifiers when a
number is put behind them to keep them apart (`fresh_isIdentifier`). A text is first reduced to a
word, which has a letter or a digit if there is anything left of it; how it is written in ASCII
before does not matter.
-/

namespace SchemaModel.Naming

/-- Letters, digits and underscores, not all of them underscores. -/
structure IsWord (cs : List Char) : Prop where
  chars : ∀ c ∈ cs, c.isAlphanum ∨ c = '_'
  solid : ∃ c ∈ cs, c.isAlphanum

/-- A text of capitals, digits and underscores that does not start with a digit. -/
structure IsIdentifier (name : String) : Prop where
  nonempty : name ≠ ""
  chars : ∀ c ∈ name.toList, isConstantChar c
  start : startsWithDigit name.toList = false

def IsRun (cs : List Char) : Prop := cs ≠ [] ∧ ∀ c ∈ cs, c.isAlphanum

theorem reverse_isRun {cs : List Char} (hc : ¬ cs.isEmpty) (h : ∀ c ∈ cs, c.isAlphanum) :
    IsRun cs.reverse := by
  refine ⟨?_, fun c hmem => h c (List.mem_reverse.1 hmem)⟩
  simpa using hc

theorem runsFrom_isRun {current cs : List Char} (h : ∀ c ∈ current, c.isAlphanum) :
    ∀ word ∈ runsFrom current cs, IsRun word := by
  induction cs generalizing current with
  | nil =>
    rw [runsFrom]
    split
    · exact List.forall_mem_nil _
    · rename_i hc
      exact List.forall_mem_singleton.2 (reverse_isRun hc h)
  | cons c rest ih =>
    rw [runsFrom]
    split
    · rename_i hc
      exact ih (List.forall_mem_cons.2 ⟨hc, h⟩)
    · split
      · exact ih (List.forall_mem_nil _)
      · rename_i hc
        exact List.forall_mem_cons.2 ⟨reverse_isRun hc h, ih (List.forall_mem_nil _)⟩

theorem IsRun.isWord {cs : List Char} (h : IsRun cs) : IsWord cs := by
  obtain ⟨c, hc⟩ := List.exists_mem_of_ne_nil cs h.1
  exact ⟨fun c hc => .inl (h.2 c hc), c, hc, h.2 c hc⟩

theorem joinRuns_isWord {words : List (List Char)} (h : ∀ word ∈ words, IsRun word)
    (hne : words ≠ []) : IsWord (joinRuns words) := by
  induction words with
  | nil => exact absurd rfl hne
  | cons word rest ih =>
    obtain ⟨hword, hrest⟩ := List.forall_mem_cons.1 h
    cases rest with
    | nil => simpa [joinRuns] using hword.isWord
    | cons next rest =>
      have hjoined := ih hrest (List.cons_ne_nil _ _)
      have heq : joinRuns (word :: next :: rest) = word ++ '_' :: joinRuns (next :: rest) := by
        simp [joinRuns]
      rw [heq]
      constructor
      · intro c hc
        rcases List.mem_append.1 hc with hc | hc
        · exact hword.isWord.chars c hc
        · rcases List.mem_cons.1 hc with rfl | hc
          · exact .inr rfl
          · exact hjoined.chars c hc
      · obtain ⟨c, hc, halnum⟩ := hword.isWord.solid
        exact ⟨c, List.mem_append_left _ hc, halnum⟩

theorem IsWord.ne_nil {cs : List Char} (h : IsWord cs) : cs ≠ [] := by
  obtain ⟨c, hc, -⟩ := h.solid
  exact List.ne_nil_of_mem hc

/-- A text in capitals becomes an identifier with an underscore before a digit. -/
theorem isIdentifier_ofList {cs : List Char} (hne : cs ≠ []) (h : ∀ c ∈ cs, isConstantChar c) :
    IsIdentifier (String.ofList (guardDigit cs)) := by
  rw [guardDigit]
  constructor
  · split <;> simp [hne]
  · rw [String.toList_ofList]
    split
    · exact List.forall_mem_cons.2 ⟨rfl, h⟩
    · exact h
  · rw [String.toList_ofList]
    split
    · rfl
    · rename_i hdigit
      exact Bool.eq_false_iff.2 hdigit

/-- A word in capitals is a word of capitals, digits and underscores. -/
class LawfulConstant [Libraries] : Prop where
  isWord : ∀ {cs}, IsWord cs → IsWord (Libraries.constant cs)
  chars : ∀ {cs}, IsWord cs → ∀ c ∈ Libraries.constant cs, isConstantChar c

section

variable [Libraries]

theorem sanitizeChars_isWord {cs : List Char} (h : ¬ (sanitizeChars cs).isEmpty) :
    IsWord (sanitizeChars cs) := by
  have hruns : ∀ word ∈ runs (Libraries.ascii cs), IsRun word :=
    runsFrom_isRun (List.forall_mem_nil _)
  refine joinRuns_isWord hruns fun hnone => h ?_
  rw [sanitizeChars, hnone]
  rfl

theorem enumConstant_isIdentifier [LawfulConstant] (value : String) :
    IsIdentifier (enumConstant value) := by
  rw [enumConstant, constantOf]
  split
  · exact ⟨by decide, List.all_eq_true.1 (by decide), by decide⟩
  · rename_i hcleaned
    have hword := sanitizeChars_isWord hcleaned
    split
    · rename_i hall
      exact isIdentifier_ofList hword.ne_nil (List.all_eq_true.1 hall)
    · exact isIdentifier_ofList (LawfulConstant.isWord hword).ne_nil (LawfulConstant.chars hword)

end

theorem numbered_isIdentifier {base : String} (h : IsIdentifier base) (n : Nat) :
    IsIdentifier (numbered base n) := by
  have hl : (numbered base n).toList = base.toList ++ Nat.toDigits 10 n := by
    rw [numbered, String.toList_append]
    congr 1
    exact Nat.toList_repr
  have hbase : base.toList ≠ [] := by simpa using h.nonempty
  obtain ⟨first, rest, hfirst⟩ := List.exists_cons_of_ne_nil hbase
  constructor
  · intro hempty
    rw [hempty, hfirst] at hl
    cases hl
  · rw [hl, List.forall_mem_append]
    refine ⟨h.chars, fun c hc => ?_⟩
    simp [isConstantChar, Nat.isDigit_of_mem_toDigits (by decide) (by decide) hc]
  · have hstart := h.start
    rw [hfirst] at hstart
    rw [hl, hfirst]
    exact hstart

theorem fresh_eq_or_numbered (base : String) (used : List String) :
    fresh base used = base ∨ ∃ n, fresh base used = numbered base n := by
  rw [fresh]
  split
  · cases hfound : (candidates base (used.length + 1)).find? fun name => !used.contains name with
    | none => exact .inl rfl
    | some name =>
      obtain ⟨n, -, rfl⟩ := List.mem_map.1 (List.mem_of_find?_eq_some hfound)
      exact .inr ⟨_, rfl⟩
  · exact .inl rfl

theorem fresh_isIdentifier {base : String} (h : IsIdentifier base) (used : List String) :
    IsIdentifier (fresh base used) := by
  rcases fresh_eq_or_numbered base used with heq | ⟨n, heq⟩
  · rwa [heq]
  · rw [heq]
    exact numbered_isIdentifier h n

end SchemaModel.Naming
