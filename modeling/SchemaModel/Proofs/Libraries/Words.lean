import SchemaModel.Proofs.Computed
import SchemaModel.Proofs.Sanitizing

/-!
The texts of the program obey the laws that names ask for: ASCII stays as it is
(`toAscii_eq_self`), words in capitals are words of capitals (`constantFrom_chars`), and a clean
text becomes letters and digits when its words are joined with capitals (`toPascal_isRun`).
-/

namespace SchemaModel.Naming

theorem not_isSeparator {c : Char} (h : c.isAlphanum) : ¬ Text.isSeparator c := by
  intro hs
  simp only [Text.isSeparator, Bool.or_eq_true, decide_eq_true_eq] at hs
  rcases hs with (rfl | rfl) | rfl <;> exact absurd h (by decide)

theorem isConstantChar_toUpper {c : Char} (h : c.isAlphanum) : isConstantChar c.toUpper :=
  forall_alphanum (p := fun c => isConstantChar c.toUpper) (by decide) h

theorem constantFrom_chars {before : Char} {cs : List Char}
    (h : ∀ c ∈ cs, c.isAlphanum ∨ c = '_') :
    ∀ c ∈ Text.constantFrom before cs, isConstantChar c := by
  induction cs generalizing before with
  | nil => exact List.forall_mem_nil _
  | cons c rest ih =>
    obtain ⟨hc, hrest⟩ := List.forall_mem_cons.1 h
    rw [Text.constantFrom]
    split
    · exact List.forall_mem_cons.2 ⟨rfl, ih hrest⟩
    · rename_i hsep
      split
      · rename_i hcase
        have hupper : isConstantChar c := by
          simp [isConstantChar, (Bool.and_eq_true_iff.1 hcase).2]
        exact List.forall_mem_cons.2 ⟨rfl, List.forall_mem_cons.2 ⟨hupper, ih hrest⟩⟩
      · have halnum : c.isAlphanum := hc.resolve_right (by rintro rfl; exact hsep rfl)
        exact List.forall_mem_cons.2 ⟨isConstantChar_toUpper halnum, ih hrest⟩

theorem constantFrom_solid {before : Char} {cs : List Char} (h : ∃ c ∈ cs, c.isAlphanum) :
    ∃ c ∈ Text.constantFrom before cs, c.isAlphanum := by
  induction cs generalizing before with
  | nil => simp at h
  | cons c rest ih =>
    rw [Text.constantFrom]
    by_cases halnum : c.isAlphanum
    · rw [if_neg (not_isSeparator halnum)]
      split
      · exact ⟨c, List.mem_cons_of_mem _ List.mem_cons_self, halnum⟩
      · exact ⟨c.toUpper, List.mem_cons_self, toUpper_alphanum halnum⟩
    · have hrest : ∃ c ∈ rest, c.isAlphanum := by simpa [halnum] using h
      obtain ⟨d, hd, hdalnum⟩ := @ih c hrest
      refine ⟨d, ?_, hdalnum⟩
      split
      · exact List.mem_cons_of_mem _ hd
      · split
        · exact List.mem_cons_of_mem _ (List.mem_cons_of_mem _ hd)
        · exact List.mem_cons_of_mem _ hd

theorem alphanum_of_isConstantChar {c : Char} (h : isConstantChar c) : c.isAlphanum ∨ c = '_' := by
  simp only [isConstantChar, Bool.or_eq_true, decide_eq_true_eq] at h
  simp only [Char.isAlphanum, Char.isAlpha, Bool.or_eq_true]
  tauto

theorem toLower_alphanum {c : Char} (h : c.isAlphanum) : c.toLower.isAlphanum :=
  forall_alphanum (p := fun c => c.toLower.isAlphanum) (by decide) h

/-- Behind a separator no underscore stands, so none is taken for the start of a word. -/
theorem pascalFrom_alphanum {starts : Bool} {before : Char} {cs : List Char}
    (h : ∀ c ∈ cs, c.isAlphanum ∨ c = '_') (halone : cs.IsChain fun a b => a = '_' → b ≠ '_')
    (hstart : starts → cs.head? ≠ some '_') :
    ∀ c ∈ Text.pascalFrom starts before cs, c.isAlphanum := by
  induction cs generalizing starts before with
  | nil => exact List.forall_mem_nil _
  | cons c rest ih =>
    obtain ⟨hc, hrest⟩ := List.forall_mem_cons.1 h
    obtain ⟨hnext, hchain⟩ := List.isChain_cons.1 halone
    have hinside : ∀ before : Char, ∀ x ∈ Text.pascalFrom false before rest, x.isAlphanum :=
      fun before => ih hrest hchain (by simp)
    rw [Text.pascalFrom]
    split
    · rename_i hs
      have halnum : c.isAlphanum := by
        refine hc.resolve_right fun hunderscore => hstart hs ?_
        rw [hunderscore, List.head?_cons]
      exact List.forall_mem_cons.2 ⟨toUpper_alphanum halnum, hinside c⟩
    split
    · rename_i hsep
      have hunderscore : c = '_' := hc.resolve_left fun halnum => not_isSeparator halnum hsep
      exact ih hrest hchain fun _ hfirst => hnext '_' hfirst hunderscore rfl
    · rename_i hsep
      have halnum : c.isAlphanum := hc.resolve_right (by rintro rfl; exact hsep rfl)
      refine List.forall_mem_cons.2 ⟨?_, hinside c⟩
      split
      · exact halnum
      · exact toLower_alphanum halnum

theorem toPascal_isRun {cs : List Char} (hne : cs ≠ []) (h : IsClean cs) :
    IsRun (Text.toPascal cs) := by
  refine ⟨?_, pascalFrom_alphanum h.chars h.alone fun _ => h.first⟩
  obtain ⟨c, rest, rfl⟩ := List.exists_cons_of_ne_nil hne
  simp [Text.toPascal, Text.pascalFrom]

theorem toAscii_eq_self {cs : List Char} (h : ∀ c ∈ cs, c.toNat < 128) : Text.toAscii cs = cs := by
  induction cs with
  | nil => rfl
  | cons c rest ih =>
    obtain ⟨hc, hrest⟩ := List.forall_mem_cons.1 h
    rw [Text.toAscii, List.flatMap_cons, Text.spell, if_pos hc, ← Text.toAscii, ih hrest]
    rfl

instance : LawfulConstant where
  isWord h :=
    ⟨fun c hc => alphanum_of_isConstantChar (constantFrom_chars h.chars c hc),
      constantFrom_solid h.solid⟩
  chars h := constantFrom_chars h.chars

instance : LawfulAscii := ⟨toAscii_eq_self⟩

instance : LawfulPascal := ⟨toPascal_isRun⟩

example : sanitize "__a..b__" = "a_b" := by cbv

end SchemaModel.Naming
