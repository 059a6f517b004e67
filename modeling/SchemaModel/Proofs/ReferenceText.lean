import SchemaModel.Proofs.Pointer

/-!
References and the names in them. Every name but the empty one has a reference from which it is read
again. A text is the reference of the name that it holds exactly if each of its tildes starts an
escape (`Reference.encodes_names`).

Escaping replaces tildes before slashes and unescaping replaces them last
(`escapeChars_eq_replaceAll`, `unescapeChars_eq_replaceAll`), or else a tilde of one replacement
would meet the digit of the other: `~01` stands for `~1`, not for a slash.
-/

namespace SchemaModel

namespace Text

/-- A text with another one in place of a mark that is not empty, wherever it stands. -/
def replaceAll (mark new : List Char) : List Char → List Char
  | [] => []
  | c :: rest =>
    if mark.isPrefixOf (c :: rest) then new ++ replaceAll mark new (rest.drop (mark.length - 1))
    else c :: replaceAll mark new rest
termination_by cs => cs.length
decreasing_by
  · simp only [List.length_drop, List.length_cons]
    omega
  · exact Nat.lt_succ_self _

theorem replaceAll_mark (m : Char) (mark new rest : List Char) :
    replaceAll (m :: mark) new (m :: mark ++ rest) = new ++ replaceAll (m :: mark) new rest := by
  rw [List.cons_append, replaceAll, if_pos]
  · simp
  · simp

theorem replaceAll_cons {mark : List Char} {c : Char} {rest : List Char}
    (h : ¬mark <+: c :: rest) (new : List Char) :
    replaceAll mark new (c :: rest) = c :: replaceAll mark new rest := by
  rw [replaceAll, if_neg (by simpa using h)]

/-- A single character is replaced on its own. -/
theorem replaceAll_singleton (m : Char) (new cs : List Char) :
    replaceAll [m] new cs = cs.flatMap fun c => if c = m then new else [c] := by
  induction cs with
  | nil => rw [replaceAll, List.flatMap_nil]
  | cons c rest ih =>
    rw [List.flatMap_cons, ← ih]
    by_cases hc : c = m
    · subst hc
      rw [if_pos rfl]
      exact replaceAll_mark c [] new rest
    · rw [if_neg hc, replaceAll_cons fun h => hc (List.cons_prefix_cons.1 h).1.symm]
      rfl

end Text

namespace Reference

open Text (replaceAll replaceAll_mark replaceAll_cons replaceAll_singleton)

theorem escapeChars_cons (c : Char) (rest : List Char) :
    escapeChars (c :: rest) = escapeChar c ++ escapeChars rest := rfl

theorem escapeChars_eq_replaceAll (cs : List Char) :
    escapeChars cs = replaceAll ['/'] ['~', '1'] (replaceAll ['~'] ['~', '0'] cs) := by
  rw [replaceAll_singleton, replaceAll_singleton, List.flatMap_assoc, escapeChars]
  congr 1
  funext c
  by_cases ht : c = '~'
  · subst ht
    rfl
  · simp [escapeChar, ht]

/-- The replacement of slashes puts no digit at the front. -/
theorem zero_of_replaceAll {cs rest : List Char}
    (h : replaceAll ['~', '1'] ['/'] cs = '0' :: rest) : ∃ more, cs = '0' :: more := by
  cases cs with
  | nil => simp [replaceAll] at h
  | cons c more =>
    rw [replaceAll] at h
    split at h
    · simp at h
    · exact ⟨more, by rw [(List.cons_eq_cons.1 h).1]⟩

theorem unescapeChars_eq_replaceAll (cs : List Char) :
    unescapeChars cs = replaceAll ['~', '0'] ['~'] (replaceAll ['~', '1'] ['/'] cs) := by
  induction cs using unescapeChars.induct with
  | case1 rest ih =>
    have hzero : ¬['~', '1'] <+: '~' :: '0' :: rest := by simp
    have hone : ¬['~', '1'] <+: '0' :: rest := by simp
    rw [unescapeChars, ih, replaceAll_cons hzero, replaceAll_cons hone]
    exact (replaceAll_mark '~' ['0'] ['~'] _).symm
  | case2 rest ih =>
    have hslash := replaceAll_mark '~' ['1'] ['/'] rest
    simp only [List.cons_append, List.nil_append] at hslash
    rw [unescapeChars, ih, hslash, replaceAll_cons (by simp)]
  | case3 c rest hzero hone ih =>
    have hslash : ¬['~', '1'] <+: c :: rest := by
      rintro ⟨more, h⟩
      obtain ⟨rfl, rfl⟩ := List.cons_eq_cons.1 h
      exact hone _ rfl rfl
    -- what follows a tilde after the first replacement followed it before
    have htilde : ¬['~', '0'] <+: c :: replaceAll ['~', '1'] ['/'] rest := by
      rintro ⟨more, h⟩
      obtain ⟨rfl, hrest⟩ := List.cons_eq_cons.1 h
      obtain ⟨_, rfl⟩ := zero_of_replaceAll hrest.symm
      exact hzero _ rfl rfl
    rw [unescapeChars, ih, replaceAll_cons hslash, replaceAll_cons htilde]
    · exact hzero
    · exact hone
  | case4 => simp [unescapeChars, replaceAll]

/-- In the other order the two replacements read a slash. -/
example : replaceAll ['~', '1'] ['/'] (replaceAll ['~', '0'] ['~'] ['~', '0', '1']) = ['/'] := by
  cbv

/-- Each tilde is followed by a digit with which it stands for a character. -/
def TildesEscaped (cs : List Char) : Prop :=
  ∀ before behind, cs = before ++ '~' :: behind →
    behind.head? = some '0' ∨ behind.head? = some '1'

theorem tildesEscaped_cons {c : Char} {rest : List Char} : TildesEscaped (c :: rest) ↔
    (c = '~' → rest.head? = some '0' ∨ rest.head? = some '1') ∧ TildesEscaped rest := by
  constructor
  · intro h
    refine ⟨?_, ?_⟩
    · rintro rfl
      exact h [] rest rfl
    · rintro before behind rfl
      exact h (c :: before) behind rfl
  · rintro ⟨hfirst, hrest⟩ before behind h
    cases before with
    | nil =>
      obtain ⟨rfl, rfl⟩ := List.cons_eq_cons.1 h
      exact hfirst rfl
    | cons d before => exact hrest before behind (List.cons_eq_cons.1 h).2

theorem tildesEscaped_escapeChars (cs : List Char) : TildesEscaped (escapeChars cs) := by
  induction cs with
  | nil =>
    intro before behind h
    simp [escapeChars] at h
  | cons c rest ih =>
    rw [escapeChars_cons, escapeChar]
    split
    · simpa [tildesEscaped_cons] using ih
    · rename_i ht
      split <;> simpa [tildesEscaped_cons, ht] using ih

/-- What is read is written again in the same way, if no other spelling was used. -/
theorem escapeChars_unescapeChars {cs : List Char} (hs : '/' ∉ cs) (ht : TildesEscaped cs) :
    escapeChars (unescapeChars cs) = cs := by
  induction cs using unescapeChars.induct with
  | case1 rest ih =>
    have hrest := (tildesEscaped_cons.1 (tildesEscaped_cons.1 ht).2).2
    rw [unescapeChars, escapeChars_cons, ih (fun hm => hs (by simp [hm])) hrest]
    rfl
  | case2 rest ih =>
    have hrest := (tildesEscaped_cons.1 (tildesEscaped_cons.1 ht).2).2
    rw [unescapeChars, escapeChars_cons, ih (fun hm => hs (by simp [hm])) hrest]
    rfl
  | case3 c rest hzero hone ih =>
    obtain ⟨htilde, hrest⟩ := tildesEscaped_cons.1 ht
    have hc : c ≠ '~' := by
      rintro rfl
      rcases htilde rfl with h | h
      · obtain ⟨more, rfl⟩ := List.head?_eq_some_iff.1 h
        exact hzero more rfl rfl
      · obtain ⟨more, rfl⟩ := List.head?_eq_some_iff.1 h
        exact hone more rfl rfl
    have hslash : c ≠ '/' := fun h => hs (h ▸ List.mem_cons_self)
    rw [unescapeChars, escapeChars_cons, ih (fun hm => hs (List.mem_cons_of_mem _ hm)) hrest,
      escapeChar, if_neg hc, if_neg hslash]
    · rfl
    · exact hzero
    · exact hone
  | case4 => rfl

theorem escapeChars_unescapeChars_iff {cs : List Char} (hs : '/' ∉ cs) :
    escapeChars (unescapeChars cs) = cs ↔ TildesEscaped cs := by
  refine ⟨fun h => ?_, escapeChars_unescapeChars hs⟩
  rw [← h]
  exact tildesEscaped_escapeChars _

theorem root_append_inj {a b : String} : root ++ a = root ++ b ↔ a = b := by
  rw [← String.toList_inj, String.toList_append, String.toList_append,
    List.append_cancel_left_eq, String.toList_inj]

theorem root_prefix_iff {path : String} :
    root.toList <+: path.toList ↔ ∃ segment, path = root ++ segment := by
  constructor
  · rintro ⟨more, h⟩
    refine ⟨String.ofList more, String.toList_injective ?_⟩
    rw [← h, String.toList_append, String.toList_ofList]
  · rintro ⟨segment, rfl⟩
    exact ⟨segment.toList, String.toList_append.symm⟩

theorem component?_root (segment : String) : component? (root ++ segment) =
    if segment = "" ∨ '/' ∈ segment.toList then none else some (unescape segment) := by
  have hdrop : (root ++ segment).toList.drop root.length = segment.toList := by
    rw [String.toList_append, ← String.length_toList, List.drop_left]
  have hstarts : root.toList.isPrefixOf (root ++ segment).toList := by
    rw [List.isPrefixOf_iff_prefix, root_prefix_iff]
    exact ⟨segment, rfl⟩
  rw [component?]
  simp only [hdrop, hstarts, Bool.true_and, unescape]
  by_cases hempty : segment = ""
  · simp [hempty]
  · by_cases hslash : '/' ∈ segment.toList <;> simp [hempty, hslash]

theorem component?_of_not_root {path : String} (h : ¬∃ segment, path = root ++ segment) :
    component? path = none := by
  have hstarts : root.toList.isPrefixOf path.toList = false := by
    rw [← Bool.not_eq_true, List.isPrefixOf_iff_prefix, root_prefix_iff]
    exact h
  rw [component?]
  simp [hstarts]

/-- A reference names a component by one segment behind the root. -/
theorem component?_eq_some_iff {path name : String} : component? path = some name ↔
    ∃ segment, path = root ++ segment ∧ segment ≠ "" ∧ '/' ∉ segment.toList ∧
      unescape segment = name := by
  constructor
  · intro h
    have hroot : ∃ segment, path = root ++ segment := by
      by_contra hno
      rw [component?_of_not_root hno] at h
      cases h
    obtain ⟨segment, rfl⟩ := hroot
    rw [component?_root, Option.ite_none_left_eq_some, not_or, Option.some.injEq] at h
    exact ⟨segment, rfl, h.1.1, h.1.2, h.2⟩
  · rintro ⟨segment, rfl, hempty, hslash, rfl⟩
    rw [component?_root, if_neg (by simp [hempty, hslash])]

theorem component?_eq_none_iff {path : String} : component? path = none ↔
    (¬∃ segment, path = root ++ segment) ∨
      ∃ segment, path = root ++ segment ∧ (segment = "" ∨ '/' ∈ segment.toList) := by
  constructor
  · intro h
    refine or_iff_not_imp_left.2 fun hroot => ?_
    obtain ⟨segment, rfl⟩ := not_not.1 hroot
    refine ⟨segment, rfl, ?_⟩
    rw [component?_root, ite_eq_left_iff] at h
    by_contra hsegment
    cases h hsegment
  · rintro (hno | ⟨segment, rfl, hsegment⟩)
    · exact component?_of_not_root hno
    · rw [component?_root, if_pos hsegment]

theorem escape_eq_empty_iff {name : String} : escape name = "" ↔ name = "" := by
  constructor
  · intro h
    have hchars : escapeChars name.toList = escapeChars [] := by
      rw [← toList_escape, h]
      rfl
    exact String.toList_eq_nil_iff.1 (escapeChars_injective hchars)
  · rintro rfl
    rfl

/-- Only the empty name cannot be read from its reference. -/
theorem component?_ofComponent_iff {name : String} :
    component? (ofComponent name) = some name ↔ name ≠ "" := by
  have hslash : '/' ∉ (escape name).toList := by
    rw [toList_escape]
    exact slash_notMem_escapeChars _
  have hback : unescape (escape name) = name := by
    rw [unescape, toList_escape, unescapeChars_escapeChars, String.ofList_toList]
  rw [ofComponent, component?_root, hback]
  simp only [escape_eq_empty_iff, or_iff_left hslash]
  simp

/-- A reference is the one written for the name in it exactly if its tildes are escaped. -/
theorem ofComponent_eq_iff {path name : String} (h : component? path = some name) :
    ofComponent name = path ↔ ∃ segment, path = root ++ segment ∧ TildesEscaped segment.toList := by
  obtain ⟨segment, rfl, -, hslash, rfl⟩ := component?_eq_some_iff.1 h
  have hsegment : ofComponent (unescape segment) = root ++ segment ↔
      TildesEscaped segment.toList := by
    rw [ofComponent, root_append_inj, ← String.toList_inj, toList_escape, unescape,
      String.toList_ofList]
    exact escapeChars_unescapeChars_iff hslash
  rw [hsegment]
  simp only [root_append_inj, exists_eq_left']

/-- References hold names. A name is written behind the root, and read from there if it is one
segment that is not empty. Each name but the empty one is read from its own reference; any other
reference from which it is read has a tilde that starts no escape. -/
theorem encodes_names (name path : String) :
    (ofComponent name).toList = root.toList ++
      replaceAll ['/'] ['~', '1'] (replaceAll ['~'] ['~', '0'] name.toList) ∧
    (component? path = some name ↔ ∃ segment, path = root ++ segment ∧ segment ≠ "" ∧
      '/' ∉ segment.toList ∧
      name.toList = replaceAll ['~', '0'] ['~'] (replaceAll ['~', '1'] ['/'] segment.toList)) ∧
    (component? (ofComponent name) = some name ↔ name ≠ "") ∧
    (component? path = some name →
      (ofComponent name = path ↔
        ∃ segment, path = root ++ segment ∧ TildesEscaped segment.toList)) ∧
    (component? path = none ↔ (¬∃ segment, path = root ++ segment) ∨
      ∃ segment, path = root ++ segment ∧ (segment = "" ∨ '/' ∈ segment.toList)) := by
  refine ⟨?_, ?_, component?_ofComponent_iff, ofComponent_eq_iff, component?_eq_none_iff⟩
  · rw [ofComponent, String.toList_append, toList_escape, escapeChars_eq_replaceAll]
  · have hname : ∀ segment, unescape segment = name ↔
        name.toList = replaceAll ['~', '0'] ['~'] (replaceAll ['~', '1'] ['/'] segment.toList) := by
      intro segment
      rw [← unescapeChars_eq_replaceAll, ← String.toList_inj, unescape, String.toList_ofList,
        eq_comm]
    simp only [component?_eq_some_iff, hname]

theorem encodes_names_lone_tilde :
    component? "#/components/schemas/~2~1b" = some "~2/b" ∧
    ¬TildesEscaped "~2~1b".toList ∧ ofComponent "~2/b" ≠ "#/components/schemas/~2~1b" := by
  have hread : component? "#/components/schemas/~2~1b" = some "~2/b" := by cbv
  have hlone : ¬TildesEscaped "~2~1b".toList := by
    intro h
    have hfirst := h [] "2~1b".toList rfl
    simp at hfirst
  refine ⟨hread, hlone, fun h => ?_⟩
  obtain ⟨-, -, -, hwritten, -⟩ := encodes_names "~2/b" "#/components/schemas/~2~1b"
  obtain ⟨segment, hsegment, hescaped⟩ := (hwritten hread).1 h
  have hroot : "#/components/schemas/~2~1b" = root ++ "~2~1b" := by decide
  rw [hroot, root_append_inj] at hsegment
  rw [← hsegment] at hescaped
  exact hlone hescaped

end Reference

end SchemaModel
