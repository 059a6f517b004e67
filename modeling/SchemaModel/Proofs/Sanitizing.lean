import Mathlib.Data.List.Chain
import Mathlib.Data.List.DropRight
import Mathlib.Tactic.Tauto
import SchemaModel.Proofs.Identifiers

/-!
Sanitized texts, and the segments of names that are made of them. Sanitizing a text is three
rewritings one after another (`Naming.rewritten_eq_joinRuns`): other characters than letters, digits
and underscores become underscores, underscores side by side become one, and those at the ends are
dropped. What comes out is clean, and a clean text stays as it is.

A key adds letters and digits to the name of its owner (`Naming.typeSegment_isRun`). Of the
libraries it is only asked that ASCII stays as it is, and that the words of a clean text give
letters and digits when they are joined with capitals.
-/

namespace SchemaModel

namespace Text

/-- Puts a mark in the place of each longest run of characters that are dropped. -/
def markRuns (dropped : Char → Bool) (mark : Char) : List Char → List Char
  | [] => []
  | c :: rest =>
    if dropped c then mark :: markRuns dropped mark (rest.dropWhile dropped)
    else c :: markRuns dropped mark rest
termination_by cs => cs.length
decreasing_by
  · exact Nat.lt_succ_of_le (List.length_dropWhile_le _ _)
  · exact Nat.lt_succ_self _

/-- Drops a mark from both ends. -/
def trimMarks (mark : Char) (cs : List Char) : List Char :=
  (cs.dropWhile (· == mark)).rdropWhile (· == mark)

variable {dropped : Char → Bool} {mark c : Char} {cs rest : List Char}

theorem markRuns_of_dropped (h : dropped c) : markRuns dropped mark (c :: rest) =
    mark :: markRuns dropped mark (rest.dropWhile dropped) := by
  rw [markRuns, if_pos h]

theorem markRuns_of_kept (h : ¬dropped c) : markRuns dropped mark (c :: rest) =
    c :: markRuns dropped mark rest := by
  rw [markRuns, if_neg h]

theorem dropWhile_dropWhile {p q : Char → Bool} (h : ∀ c, p c → q c) (cs : List Char) :
    (cs.dropWhile p).dropWhile q = cs.dropWhile q := by
  induction cs with
  | nil => rfl
  | cons c rest ih =>
    by_cases hc : p c
    · rw [List.dropWhile_cons_of_pos hc, List.dropWhile_cons_of_pos (h c hc), ih]
    · rw [List.dropWhile_cons_of_neg hc]

/-- A mark at the front stands for what was dropped there, or was there before. -/
theorem dropWhile_markRuns (dropped : Char → Bool) (mark : Char) (cs : List Char) :
    (markRuns dropped mark cs).dropWhile (· == mark) =
      markRuns dropped mark (cs.dropWhile fun c => dropped c || c == mark) := by
  have hsome : ∀ c, dropped c → (dropped c || c == mark) := by
    intro c hc
    rw [hc, Bool.true_or]
  induction cs using markRuns.induct dropped with
  | case1 => simp [markRuns]
  | case2 c rest hc ih =>
    rw [markRuns_of_dropped hc, List.dropWhile_cons_of_pos (by simp), ih,
      dropWhile_dropWhile hsome, List.dropWhile_cons_of_pos (by simp [hc])]
  | case3 c rest hc ih =>
    rw [markRuns_of_kept hc]
    by_cases hmark : c = mark
    · subst hmark
      rw [List.dropWhile_cons_of_pos (by simp), ih, List.dropWhile_cons_of_pos (by simp)]
    · rw [List.dropWhile_cons_of_neg (by simpa using hmark),
        List.dropWhile_cons_of_neg (by simpa [hmark] using hc), markRuns_of_kept hc]

/-- Marks side by side become one, as if they were dropped in the first place. -/
theorem markRuns_markRuns (dropped : Char → Bool) (mark : Char) (cs : List Char) :
    markRuns (· == mark) mark (markRuns dropped mark cs) =
      markRuns (fun c => dropped c || c == mark) mark cs := by
  have hsome : ∀ c, dropped c → (dropped c || c == mark) := by
    intro c hc
    rw [hc, Bool.true_or]
  induction hn : cs.length using Nat.strongRecOn generalizing cs with
  | ind n ih =>
    cases cs with
    | nil => simp [markRuns]
    | cons c rest =>
      have hshorter : (rest.dropWhile fun c => dropped c || c == mark).length < n := by
        have hle := List.length_dropWhile_le (fun c => dropped c || c == mark) rest
        rw [List.length_cons] at hn
        omega
      by_cases hc : dropped c
      · rw [markRuns_of_dropped hc, markRuns_of_dropped (by simp), dropWhile_markRuns,
          dropWhile_dropWhile hsome, ih _ hshorter _ rfl, markRuns_of_dropped (by simp [hc])]
      rw [markRuns_of_kept hc]
      by_cases hmark : c = mark
      · subst hmark
        rw [markRuns_of_dropped (by simp), dropWhile_markRuns, ih _ hshorter _ rfl,
          markRuns_of_dropped (by simp)]
      · have hrest : rest.length < n := hn ▸ Nat.lt_succ_self _
        rw [markRuns_of_kept (by simpa using hmark), ih _ hrest _ rfl,
          markRuns_of_kept (by simpa [hmark] using hc)]

theorem markRuns_eq_self (h : ∀ c ∈ cs, ¬dropped c) : markRuns dropped mark cs = cs := by
  induction cs with
  | nil => rw [markRuns]
  | cons c rest ih =>
    obtain ⟨hc, hrest⟩ := List.forall_mem_cons.1 h
    rw [markRuns_of_kept hc, ih hrest]

/-- Marks that stand alone stay. -/
theorem markRuns_eq_self_of_isChain (h : cs.IsChain fun a b => a = mark → b ≠ mark) :
    markRuns (· == mark) mark cs = cs := by
  induction cs with
  | nil => rw [markRuns]
  | cons c rest ih =>
    obtain ⟨hnext, hrest⟩ := List.isChain_cons.1 h
    by_cases hc : c = mark
    · subst hc
      have halone : rest.dropWhile (· == c) = rest := by
        refine List.dropWhile_beq_eq_self_of_head?_ne fun hfirst => ?_
        exact hnext c hfirst rfl rfl
      rw [markRuns_of_dropped (by simp), halone, ih hrest]
    · rw [markRuns_of_kept (by simpa using hc), ih hrest]

theorem markRuns_append {word : List Char} (h : ∀ c ∈ word, ¬dropped c) :
    markRuns dropped mark (word ++ rest) = word ++ markRuns dropped mark rest := by
  induction word with
  | nil => rfl
  | cons c word ih =>
    obtain ⟨hc, hword⟩ := List.forall_mem_cons.1 h
    rw [List.cons_append, markRuns_of_kept hc, ih hword, List.cons_append]

theorem rdropWhile_append (p : Char → Bool) (a b : List Char) : (a ++ b).rdropWhile p =
    if b.rdropWhile p = [] then a.rdropWhile p else a ++ b.rdropWhile p := by
  simp only [List.rdropWhile, List.reverse_append, List.dropWhile_append, List.isEmpty_iff,
    List.reverse_eq_nil_iff]
  split
  · rfl
  · simp

end Text

namespace Naming

open Text (markRuns trimMarks)

/-- Letters, digits and underscores, which stand alone between the others. -/
structure IsClean (cs : List Char) : Prop where
  chars : ∀ c ∈ cs, c.isAlphanum ∨ c = '_'
  first : cs.head? ≠ some '_'
  last : cs.getLast? ≠ some '_'
  alone : cs.IsChain fun a b => a = '_' → b ≠ '_'

/-- Sanitizing by three rewritings: other characters become underscores, underscores side by side
become one, and those at the ends are dropped. -/
def rewritten (cs : List Char) : List Char :=
  trimMarks '_' (markRuns (· == '_') '_' (markRuns (fun c => !(c.isAlphanum || c == '_')) '_' cs))

/-- Characters that are no letters or digits, underscores among them. -/
def isOther (c : Char) : Bool := !c.isAlphanum

theorem isOther_or_underscore (c : Char) : (isOther c || c == '_') = isOther c := by
  by_cases hc : c = '_'
  · subst hc
    decide
  · rw [beq_eq_false_iff_ne.2 hc, Bool.or_false]

theorem rewritten_eq (cs : List Char) :
    rewritten cs = trimMarks '_' (markRuns isOther '_' cs) := by
  have hother : (fun c : Char => !(c.isAlphanum || c == '_') || c == '_') = isOther := by
    funext c
    rw [← isOther_or_underscore c, isOther]
    cases c.isAlphanum <;> cases c == '_' <;> rfl
  rw [rewritten, Text.markRuns_markRuns, hother]

theorem runs_of_not_alphanum {c : Char} (h : ¬c.isAlphanum) (rest : List Char) :
    runs (c :: rest) = runs rest := by
  simp [runs, runsFrom, h]

theorem runsFrom_append {word : List Char} (h : ∀ c ∈ word, c.isAlphanum)
    (current rest : List Char) :
    runsFrom current (word ++ rest) = runsFrom (word.reverse ++ current) rest := by
  induction word generalizing current with
  | nil => rfl
  | cons c word ih =>
    obtain ⟨hc, hword⟩ := List.forall_mem_cons.1 h
    rw [List.cons_append, runsFrom, if_pos hc, ih hword, List.reverse_cons, List.append_assoc]
    rfl

/-- A run ends at the first other character, or with the text. -/
theorem runs_append {word rest : List Char} (h : IsRun word)
    (hrest : ∀ c ∈ rest.head?, ¬c.isAlphanum) : runs (word ++ rest) = word :: runs rest := by
  have hempty : word.reverse.isEmpty = false := by simpa using h.1
  rw [runs, runsFrom_append h.2, List.append_nil]
  cases rest with
  | nil => simp [runs, runsFrom, h.1]
  | cons c rest =>
    have hc := hrest c rfl
    rw [runsFrom, if_neg hc, hempty, runs_of_not_alphanum hc, List.reverse_reverse]
    rfl

theorem joinRuns_cons (word : List Char) (words : List (List Char)) : joinRuns (word :: words) =
    if words = [] then word else word ++ '_' :: joinRuns words := by
  cases words with
  | nil => simp [joinRuns]
  | cons next words => simp [joinRuns]

theorem joinRuns_eq_nil_iff {words : List (List Char)} (h : ∀ word ∈ words, IsRun word) :
    joinRuns words = [] ↔ words = [] := by
  cases words with
  | nil => simp [joinRuns]
  | cons word words =>
    have hword := (h word List.mem_cons_self).1
    rw [joinRuns_cons]
    split <;> simp [hword]

theorem runs_isRun (cs : List Char) : ∀ word ∈ runs cs, IsRun word :=
  runsFrom_isRun (List.forall_mem_nil _)

theorem runs_dropWhile (cs : List Char) : runs (cs.dropWhile isOther) = runs cs := by
  induction cs with
  | nil => rfl
  | cons c rest ih =>
    by_cases hc : c.isAlphanum
    · rw [List.dropWhile_cons_of_neg (by simp [isOther, hc])]
    · rw [List.dropWhile_cons_of_pos (by simp [isOther, hc]), ih, runs_of_not_alphanum hc]

theorem IsRun.rdropWhile_eq {word : List Char} (h : IsRun word) :
    word.rdropWhile (· == '_') = word := by
  rw [List.rdropWhile_eq_self_iff]
  intro hne hlast
  have halnum := h.2 _ (List.getLast_mem hne)
  rw [beq_iff_eq.1 hlast] at halnum
  exact absurd halnum (by decide)

/-- Behind what is dropped at its front a text starts with a run. -/
theorem exists_run {cs : List Char} (h : cs.dropWhile isOther ≠ []) : ∃ word rest, IsRun word ∧
    (∀ c ∈ rest.head?, isOther c) ∧ cs.dropWhile isOther = word ++ rest := by
  refine ⟨(cs.dropWhile isOther).takeWhile Char.isAlphanum,
    (cs.dropWhile isOther).dropWhile Char.isAlphanum, ⟨?_, ?_⟩, ?_,
    List.takeWhile_append_dropWhile.symm⟩
  · obtain ⟨first, more, hcons⟩ := List.exists_cons_of_ne_nil h
    have hfirst := List.head_dropWhile_not isOther h
    simp only [hcons, List.head_cons, isOther, Bool.not_eq_false'] at hfirst
    rw [hcons, List.takeWhile_cons_of_pos hfirst]
    exact List.cons_ne_nil _ _
  · intro c hc
    exact List.mem_takeWhile_imp hc
  · intro c hc
    have hnot := List.head?_dropWhile_not Char.isAlphanum (cs.dropWhile isOther)
    rw [Option.mem_def.1 hc] at hnot
    simp [isOther, hnot]

theorem rdropWhile_markRuns (cs : List Char) :
    (markRuns isOther '_' (cs.dropWhile isOther)).rdropWhile (· == '_') = joinRuns (runs cs) := by
  induction hn : cs.length using Nat.strongRecOn generalizing cs with
  | ind n ih =>
    rw [← runs_dropWhile cs]
    by_cases hnone : cs.dropWhile isOther = []
    · rw [hnone]
      simp [markRuns, runs, runsFrom, joinRuns]
    obtain ⟨word, rest, hword, hrest, hcs⟩ := exists_run hnone
    have hkept : ∀ c ∈ word, ¬isOther c := by
      intro c hc
      simp [isOther, hword.2 c hc]
    have hnext : ∀ c ∈ rest.head?, ¬c.isAlphanum := by
      intro c hc
      simpa [isOther] using hrest c hc
    -- the mark behind the run stays if another run follows
    have hmark : (markRuns isOther '_' rest).rdropWhile (· == '_') =
        if runs rest = [] then [] else '_' :: joinRuns (runs rest) := by
      cases rest with
      | nil => simp [markRuns, runs, runsFrom]
      | cons c rest =>
        have hshorter : rest.length < n := by
          have hlength := congrArg List.length hcs
          have hle := List.length_dropWhile_le isOther cs
          simp only [List.length_append, List.length_cons] at hlength
          omega
        have hmarked := Text.rdropWhile_append (· == '_') ['_']
          (markRuns isOther '_' (rest.dropWhile isOther))
        simp only [ih _ hshorter rest rfl, joinRuns_eq_nil_iff (runs_isRun rest)] at hmarked
        rw [Text.markRuns_of_dropped (hrest c rfl), runs_of_not_alphanum (hnext c rfl)]
        exact hmarked
    rw [hcs, runs_append hword hnext, joinRuns_cons, Text.markRuns_append hkept,
      Text.rdropWhile_append, hmark, hword.rdropWhile_eq]
    by_cases hlast : runs rest = [] <;> simp [hlast]

theorem rewritten_eq_joinRuns (cs : List Char) : rewritten cs = joinRuns (runs cs) := by
  have hother : (fun c => isOther c || c == '_') = isOther := funext isOther_or_underscore
  rw [rewritten_eq, trimMarks, Text.dropWhile_markRuns, hother, rdropWhile_markRuns]

theorem ne_underscore_of_alphanum {c : Char} (h : c.isAlphanum) : c ≠ '_' := by
  rintro rfl
  exact absurd h (by decide)

theorem IsRun.head?_ne {word : List Char} (h : IsRun word) : word.head? ≠ some '_' := fun hfirst =>
  ne_underscore_of_alphanum (h.2 _ (List.mem_of_head? hfirst)) rfl

theorem IsRun.getLast?_ne {word : List Char} (h : IsRun word) : word.getLast? ≠ some '_' :=
  fun hlast => ne_underscore_of_alphanum (h.2 _ (List.mem_of_getLast? hlast)) rfl

theorem IsRun.isClean {word : List Char} (h : IsRun word) : IsClean word where
  chars c hc := .inl (h.2 c hc)
  first := h.head?_ne
  last := h.getLast?_ne
  alone := (List.pairwise_of_forall_mem_list fun a ha _ _ hunderscore =>
    absurd hunderscore (ne_underscore_of_alphanum (h.2 a ha))).isChain

theorem IsRun.append_isClean {word joined : List Char} (h : IsRun word) (hj : IsClean joined)
    (hne : joined ≠ []) : IsClean (word ++ '_' :: joined) := by
  refine ⟨?_, ?_, ?_, ?_⟩
  · intro c hc
    rcases List.mem_append.1 hc with hc | hc
    · exact .inl (h.2 c hc)
    · rcases List.mem_cons.1 hc with rfl | hc
      · exact .inr rfl
      · exact hj.chars c hc
  · rw [List.head?_append_of_ne_nil _ h.1]
    exact h.head?_ne
  · rw [List.getLast?_append_of_ne_nil _ (List.cons_ne_nil _ _), List.getLast?_cons_of_ne_nil hne]
    exact hj.last
  · refine List.isChain_append.2 ⟨h.isClean.alone, List.isChain_cons.2 ⟨?_, hj.alone⟩, ?_⟩
    · rintro c hc - rfl
      exact hj.first hc
    · rintro c hc - - rfl
      exact absurd hc h.getLast?_ne

theorem joinRuns_isClean {words : List (List Char)} (h : ∀ word ∈ words, IsRun word) :
    IsClean (joinRuns words) := by
  induction words with
  | nil => exact ⟨List.forall_mem_nil _, by simp [joinRuns], by simp [joinRuns], .nil⟩
  | cons word words ih =>
    obtain ⟨hword, hwords⟩ := List.forall_mem_cons.1 h
    rw [joinRuns_cons]
    split
    · exact hword.isClean
    · rename_i hne
      exact hword.append_isClean (ih hwords) (mt (joinRuns_eq_nil_iff hwords).1 hne)

/-- None of the rewritings changes a clean text. -/
theorem IsClean.rewritten_eq {cs : List Char} (h : IsClean cs) : rewritten cs = cs := by
  have hkept : ∀ c ∈ cs, ¬!(c.isAlphanum || c == '_') := by
    intro c hc
    rcases h.chars c hc with halnum | rfl
    · simp [halnum]
    · decide
  have hlast : ∀ hne : cs ≠ [], ¬cs.getLast hne == '_' := by
    intro hne hunderscore
    exact h.last (by rw [List.getLast?_eq_some_getLast hne, beq_iff_eq.1 hunderscore])
  rw [rewritten, Text.markRuns_eq_self hkept, Text.markRuns_eq_self_of_isChain h.alone, trimMarks,
    List.dropWhile_beq_eq_self_of_head?_ne h.first, List.rdropWhile_eq_self_iff.2 hlast]

theorem lt_of_alphanum {c : Char} (h : c.isAlphanum) : c.toNat < 128 := by
  have hupper : c.isUpper → c.val ≤ 'Z'.val := fun hu => (of_decide_eq_true hu).2
  have hlower : c.isLower → c.val ≤ 'z'.val := fun hl =>
    of_decide_eq_true (Bool.and_eq_true_iff.1 hl).2
  have hdigit : c.isDigit → c.val ≤ '9'.val := fun hd =>
    of_decide_eq_true (Bool.and_eq_true_iff.1 hd).2
  have hlast : c.val ≤ 'z'.val := by
    rcases Bool.or_eq_true_iff.1 h with halpha | hd
    · rcases Bool.or_eq_true_iff.1 halpha with hu | hl
      · exact UInt32.le_trans (hupper hu) (by decide)
      · exact hlower hl
    · exact UInt32.le_trans (hdigit hd) (by decide)
  exact Nat.lt_of_le_of_lt (UInt32.le_iff_toNat_le.1 hlast) (by decide)

theorem IsClean.isAscii {cs : List Char} (h : IsClean cs) : ∀ c ∈ cs, c.toNat < 128 := by
  intro c hc
  rcases h.chars c hc with halnum | rfl
  · exact lt_of_alphanum halnum
  · decide

/-- Letters and digits are among the first 128 characters, which can be gone through. -/
theorem forall_alphanum {p : Char → Prop}
    (h : ∀ n < 128, (Char.ofNat n).isAlphanum → p (Char.ofNat n)) {c : Char} (hc : c.isAlphanum) :
    p c := by
  have hp := h c.toNat (lt_of_alphanum hc)
  rw [Char.ofNat_toNat] at hp
  exact hp hc

theorem toUpper_alphanum {c : Char} (h : c.isAlphanum) : c.toUpper.isAlphanum :=
  forall_alphanum (p := fun c => c.toUpper.isAlphanum) (by decide) h

theorem capitalize_isRun {cs : List Char} (h : IsRun cs) : IsRun (capitalize cs) := by
  obtain ⟨c, rest, rfl⟩ := List.exists_cons_of_ne_nil h.1
  obtain ⟨hc, hrest⟩ := List.forall_mem_cons.1 h.2
  exact ⟨List.cons_ne_nil _ _, List.forall_mem_cons.2 ⟨toUpper_alphanum hc, hrest⟩⟩

theorem IsClean.isRun {cs : List Char} (h : IsClean cs) (hne : cs ≠ []) (hnone : '_' ∉ cs) :
    IsRun cs := by
  refine ⟨hne, fun c hc => (h.chars c hc).resolve_right ?_⟩
  rintro rfl
  exact hnone hc

/-- The name is the other one with letters and digits behind it. -/
def Extends (name owner : String) : Prop :=
  ∃ segment : String, IsRun segment.toList ∧ name = owner ++ segment

theorem Extends.trans {a b c : String} (hab : Extends a b) (hbc : Extends b c) : Extends a c := by
  obtain ⟨s, hs, rfl⟩ := hab
  obtain ⟨t, ht, rfl⟩ := hbc
  refine ⟨t ++ s, ?_, String.append_assoc⟩
  rw [String.toList_append]
  exact ⟨List.append_ne_nil_of_left_ne_nil ht.1 _, List.forall_mem_append.2 ⟨ht.2, hs.2⟩⟩

theorem numbered_extends (base : String) (n : Nat) : Extends (numbered base n) base := by
  have hdigits : (toString n).toList = Nat.toDigits 10 n := Nat.toList_repr
  refine ⟨toString n, ?_, rfl⟩
  rw [hdigits]
  refine ⟨Nat.toDigits_ne_nil, fun c hc => ?_⟩
  rw [Char.isAlphanum, Nat.isDigit_of_mem_toDigits (by decide) (by decide) hc, Bool.or_true]

/-- A number that keeps names apart is behind what is there already. -/
theorem Extends.fresh {base owner : String} (h : Extends base owner) (used : List String) :
    Extends (fresh base used) owner := by
  rcases fresh_eq_or_numbered base used with heq | ⟨n, heq⟩
  · rwa [heq]
  · rw [heq]
    exact (numbered_extends base n).trans h

/-- A text in ASCII is written as it is. -/
class LawfulAscii [Libraries] : Prop where
  ascii_eq_self : ∀ {cs}, (∀ c ∈ cs, c.toNat < 128) → Libraries.ascii cs = cs

/-- Words of a clean text, joined with capitals, are letters and digits. -/
class LawfulPascal [Libraries] : Prop where
  pascal_isRun : ∀ {cs}, cs ≠ [] → IsClean cs → IsRun (Libraries.pascal cs)

variable [Libraries]

theorem sanitizeChars_eq_rewritten (cs : List Char) :
    sanitizeChars cs = rewritten (Libraries.ascii cs) :=
  (rewritten_eq_joinRuns _).symm

theorem sanitizeChars_isClean (cs : List Char) : IsClean (sanitizeChars cs) :=
  joinRuns_isClean (runs_isRun _)

/-- Exactly the clean texts stay as they are. -/
theorem sanitizeChars_eq_self_iff [LawfulAscii] {cs : List Char} :
    sanitizeChars cs = cs ↔ IsClean cs := by
  constructor
  · intro h
    rw [← h]
    exact sanitizeChars_isClean cs
  · intro h
    rw [sanitizeChars_eq_rewritten, LawfulAscii.ascii_eq_self h.isAscii, h.rewritten_eq]

theorem sanitize_sanitize [LawfulAscii] (text : String) :
    sanitize (sanitize text) = sanitize text := by
  simp only [sanitize, String.toList_ofList]
  rw [sanitizeChars_eq_self_iff.2 (sanitizeChars_isClean _)]

theorem typeSegment_isRun [LawfulPascal] (key : String) : IsRun (typeSegment key).toList := by
  have hclean := sanitizeChars_isClean key.toList
  rw [typeSegment, segmentOf]
  split
  · exact ⟨by decide, List.all_eq_true.1 (by decide)⟩
  rename_i hsome
  have hne : sanitizeChars key.toList ≠ [] := by simpa using hsome
  split
  · rename_i hmixed
    simp only [isMixedCase, Bool.and_eq_true, Bool.not_eq_true', List.contains_eq_mem,
      decide_eq_false_iff_not] at hmixed
    rw [String.toList_ofList]
    exact capitalize_isRun (hclean.isRun hne hmixed.2)
  · rw [String.toList_ofList]
    exact LawfulPascal.pascal_isRun hne hclean

theorem inlineName_extends [LawfulPascal] (owner key : String) :
    Extends (inlineName owner key) owner := ⟨typeSegment key, typeSegment_isRun key, rfl⟩

/-- Sanitizing is three rewritings of the text in ASCII. It gives clean texts, which are runs of
letters and digits joined by underscores, and changes nothing the second time. A key puts letters
and digits behind the name of its owner. -/
structure SegmentRules : Prop where
  steps : ∀ text, (sanitize text).toList = rewritten (Libraries.ascii text.toList)
  clean : ∀ text, IsClean (sanitize text).toList
  joined : ∀ text, ∃ words, (∀ word ∈ words, IsRun word) ∧
    (sanitize text).toList = joinRuns words
  idempotent : ∀ text, sanitize (sanitize text) = sanitize text
  segment : ∀ key, IsRun (typeSegment key).toList
  inline : ∀ owner key, Extends (inlineName owner key) owner

theorem segmentRules [LawfulAscii] [LawfulPascal] : SegmentRules where
  steps text := by
    rw [sanitize, String.toList_ofList, sanitizeChars_eq_rewritten]
  clean text := by
    rw [sanitize, String.toList_ofList]
    exact sanitizeChars_isClean _
  joined text := ⟨_, runs_isRun _, String.toList_ofList⟩
  idempotent := sanitize_sanitize
  segment := typeSegment_isRun
  inline := inlineName_extends

end Naming

end SchemaModel
