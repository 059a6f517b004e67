import Mathlib.Data.List.Lex
import SchemaModel.Pointer
import SchemaModel.Proofs.Naming

/-!
The text of a position determines it: `Pointer.text_injective`. Names are escaped so that they
hold no slash, and between slashes a step is told by its first segment. The text of a position goes
on behind that of another one with a slash exactly if it lies inside it
(`Pointer.continues_text_iff`), and then comes after it (`Pointer.text_lt_of_encloses`).
-/

namespace SchemaModel

namespace Reference

theorem unescapeChars_escapeChars (cs : List Char) : unescapeChars (escapeChars cs) = cs := by
  induction cs with
  | nil => rfl
  | cons c rest ih =>
    have hcons : escapeChars (c :: rest) = escapeChar c ++ escapeChars rest := rfl
    rw [hcons]
    by_cases ht : c = '~'
    · subst ht
      simpa [escapeChar, unescapeChars] using ih
    · by_cases hs : c = '/'
      · subst hs
        simpa [escapeChar, unescapeChars] using ih
      · rw [escapeChar, if_neg ht, if_neg hs, List.singleton_append, unescapeChars, ih]
        · rintro _ rfl
          exact absurd rfl ht
        · rintro _ rfl
          exact absurd rfl ht

theorem slash_notMem_escapeChars (cs : List Char) : '/' ∉ escapeChars cs := by
  intro h
  obtain ⟨c, -, hc⟩ := List.mem_flatMap.1 h
  unfold escapeChar at hc
  split at hc
  · simp at hc
  · split at hc
    · simp at hc
    · rename_i hs
      exact hs (List.mem_singleton.1 hc).symm

theorem escapeChars_injective {a b : List Char} (h : escapeChars a = escapeChars b) : a = b := by
  rw [← unescapeChars_escapeChars a, h, unescapeChars_escapeChars]

theorem toList_escape (name : String) : (escape name).toList = escapeChars name.toList := by
  simp [escape]

end Reference

/-- Segments behind one slash each. -/
def slashed (segments : List (List Char)) : List Char := segments.flatMap fun seg => '/' :: seg

theorem takeWhile_segment {seg : List Char} (h : '/' ∉ seg) (rest : List (List Char)) :
    (seg ++ slashed rest).takeWhile (· != '/') = seg := by
  have hall : ∀ c ∈ seg, (c != '/') = true := by
    intro c hc
    rw [bne_iff_ne]
    rintro rfl
    exact h hc
  rw [List.takeWhile_append_of_pos hall]
  cases rest with
  | nil => simp [slashed]
  | cons s rest => simp [slashed]

theorem slashed_injective {a b : List (List Char)} (ha : ∀ seg ∈ a, '/' ∉ seg)
    (hb : ∀ seg ∈ b, '/' ∉ seg) (h : slashed a = slashed b) : a = b := by
  induction a generalizing b with
  | nil =>
    cases b with
    | nil => rfl
    | cons s b => simp [slashed] at h
  | cons s a ih =>
    cases b with
    | nil => simp [slashed] at h
    | cons t b =>
      have hst : s ++ slashed a = t ++ slashed b := by simpa [slashed] using h
      have hs : s = t := by
        rw [← takeWhile_segment (ha s List.mem_cons_self) a, hst,
          takeWhile_segment (hb t List.mem_cons_self)]
      subst hs
      have hrest := List.append_cancel_left hst
      rw [ih (fun seg hm => ha seg (List.mem_cons_of_mem _ hm))
        (fun seg hm => hb seg (List.mem_cons_of_mem _ hm)) hrest]

/-- What follows a slash is written in segments. -/
theorem exists_slashed (cs : List Char) : ∃ first segments,
    (∀ seg ∈ first :: segments, '/' ∉ seg) ∧ '/' :: cs = slashed (first :: segments) := by
  induction cs with
  | nil => exact ⟨[], [], by simp, rfl⟩
  | cons c cs ih =>
    obtain ⟨first, segments, hsegments, hcs⟩ := ih
    by_cases hc : c = '/'
    · subst hc
      refine ⟨[], first :: segments, ?_, ?_⟩
      · intro seg hm
        rcases List.mem_cons.1 hm with rfl | hm
        · exact List.not_mem_nil
        · exact hsegments seg hm
      · rw [hcs]
        rfl
    · refine ⟨c :: first, segments, ?_, ?_⟩
      · intro seg hm
        rcases List.mem_cons.1 hm with rfl | hm
        · exact List.not_mem_cons_of_ne_of_not_mem (Ne.symm hc)
            (hsegments first List.mem_cons_self)
        · exact hsegments seg (List.mem_cons_of_mem _ hm)
      · have hrest : cs = first ++ slashed segments := List.tail_eq_of_cons_eq hcs
        rw [hrest]
        rfl

namespace Step

/-- The text of a step between slashes. -/
def segments : Step → List (List Char)
  | property key => ["properties".toList, Reference.escapeChars key.toList]
  | items => ["items".toList]
  | additional => ["additionalProperties".toList]
  | allOf index => ["allOf".toList, Nat.toDigits 10 index]
  | oneOf index => ["oneOf".toList, Nat.toDigits 10 index]
  | anyOf index => ["anyOf".toList, Nat.toDigits 10 index]

theorem toList_text (step : Step) : step.text.toList = slashed step.segments := by
  cases step <;>
    simp [text, segments, slashed, Reference.toList_escape]

theorem slash_notMem_toDigits (n : Nat) : '/' ∉ Nat.toDigits 10 n := by
  intro h
  have hd := Nat.isDigit_of_mem_toDigits (by decide) (by decide) h
  revert hd
  decide

theorem slash_notMem_segments (step : Step) : ∀ seg ∈ step.segments, '/' ∉ seg := by
  have hk := Reference.slash_notMem_escapeChars
  have hn := slash_notMem_toDigits
  cases step <;> simp [segments, hk, hn]

theorem exists_segments (step : Step) : ∃ first rest, step.segments = first :: rest := by
  cases step <;> exact ⟨_, _, rfl⟩

/-- The steps behind which a sequence of segments goes on are steps of that sequence. -/
theorem flatMap_segments_eq_append {a b : List Step} {more : List (List Char)}
    (h : b.flatMap segments = a.flatMap segments ++ more) :
    ∃ rest, b = a ++ rest ∧ rest.flatMap segments = more := by
  induction a generalizing b with
  | nil => exact ⟨b, rfl, h⟩
  | cons s a ih =>
    have htail : ∀ {c : List Step}, c.flatMap segments = a.flatMap segments ++ more →
        ∃ rest, s :: c = s :: a ++ rest ∧ rest.flatMap segments = more := by
      intro c hc
      obtain ⟨rest, rfl, hrest⟩ := ih hc
      exact ⟨rest, rfl, hrest⟩
    cases b with
    | nil => cases s <;> simp [segments] at h
    | cons t b =>
      -- The first segment tells the kind of step, the second one its key or index.
      cases s <;> cases t <;> simp [segments] at h
      case property.property k l =>
        rw [String.toList_injective (Reference.escapeChars_injective h.1)]
        exact htail h.2
      case items.items => exact htail h
      case additional.additional => exact htail h
      all_goals
        rw [Naming.toDigits_injective h.1]
        exact htail h.2

theorem flatMap_segments_ne_nil {a : List Step} (h : a ≠ []) : a.flatMap segments ≠ [] := by
  cases a with
  | nil => exact absurd rfl h
  | cons s a => cases s <;> simp [segments]

end Step

namespace Pointer

theorem toList_text (p : Pointer) :
    p.text.toList = (Reference.ofComponent p.component).toList ++
      slashed (p.steps.flatMap Step.segments) := by
  have hfold : ∀ (steps : List Step) (start : String),
      (steps.foldl (fun text step => text ++ step.text) start).toList =
        start.toList ++ slashed (steps.flatMap Step.segments) := by
    intro steps
    induction steps with
    | nil => intro start; simp [slashed]
    | cons step rest ih =>
      intro start
      rw [List.foldl_cons, ih, String.toList_append, Step.toList_text]
      simp [slashed]
  exact hfold p.steps _

theorem slash_notMem_segments (p : Pointer) :
    ∀ seg ∈ p.steps.flatMap Step.segments, '/' ∉ seg := by
  intro seg hm
  obtain ⟨step, -, hs⟩ := List.mem_flatMap.1 hm
  exact step.slash_notMem_segments seg hs

/-- The position whose text goes on with some segments is reached by steps of these segments. -/
theorem eq_of_toList_text {p q : Pointer} {more : List (List Char)}
    (hmore : ∀ seg ∈ more, '/' ∉ seg) (h : q.text.toList = p.text.toList ++ slashed more) :
    ∃ rest, q = ⟨p.component, p.steps ++ rest⟩ ∧ rest.flatMap Step.segments = more := by
  have hjoin : slashed (p.steps.flatMap Step.segments) ++ slashed more =
      slashed (p.steps.flatMap Step.segments ++ more) := List.flatMap_append.symm
  rw [toList_text, toList_text] at h
  simp only [Reference.ofComponent, String.toList_append, Reference.toList_escape,
    List.append_assoc, hjoin] at h
  have ht := List.append_cancel_left h
  -- the component is what stands before the first slash
  have hc : Reference.escapeChars q.component.toList =
      Reference.escapeChars p.component.toList := by
    rw [← takeWhile_segment (Reference.slash_notMem_escapeChars _), ht,
      takeWhile_segment (Reference.slash_notMem_escapeChars _)]
  rw [hc] at ht
  have hboth : ∀ seg ∈ p.steps.flatMap Step.segments ++ more, '/' ∉ seg := by
    intro seg hm
    exact (List.mem_append.1 hm).elim (p.slash_notMem_segments seg) (hmore seg)
  obtain ⟨rest, hsteps, hrest⟩ := Step.flatMap_segments_eq_append
    (slashed_injective q.slash_notMem_segments hboth (List.append_cancel_left ht))
  have hcomponent := String.toList_injective (Reference.escapeChars_injective hc)
  exact ⟨rest, by rw [← hcomponent, ← hsteps], hrest⟩

theorem text_injective {p q : Pointer} (h : p.text = q.text) : p = q := by
  have htext : p.text.toList = q.text.toList ++ slashed [] := by
    rw [h]
    exact (List.append_nil _).symm
  obtain ⟨rest, rfl, hrest⟩ := eq_of_toList_text (List.forall_mem_nil _) htext
  by_cases hnil : rest = []
  · rw [hnil, List.append_nil]
  · exact absurd hrest (Step.flatMap_segments_ne_nil hnil)

/-- A position is that of a component or one step inside another one. -/
theorem eq_ofComponent_or_push (p : Pointer) :
    p = .ofComponent p.component ∨ ∃ outer step, p = push outer step := by
  obtain ⟨component, steps⟩ := p
  rcases List.eq_nil_or_concat steps with rfl | ⟨outer, step, rfl⟩
  · exact .inl rfl
  · exact .inr ⟨⟨component, outer⟩, step, by simp [push]⟩

/-- A position inside another one is reached from it by more steps. -/
theorem encloses_iff {p q : Pointer} :
    p.encloses q ↔ ∃ step rest, q = ⟨p.component, p.steps ++ step :: rest⟩ := by
  obtain ⟨component, steps⟩ := q
  simp only [encloses, Bool.and_eq_true, beq_iff_eq, List.isPrefixOf_iff_prefix, decide_eq_true_eq,
    mk.injEq]
  constructor
  · rintro ⟨⟨hc, more, rfl⟩, hlt⟩
    cases more with
    | nil => simp at hlt
    | cons step rest => exact ⟨step, rest, hc.symm, rfl⟩
  · rintro ⟨step, rest, hc, rfl⟩
    refine ⟨⟨hc.symm, List.prefix_append _ _⟩, ?_⟩
    rw [List.length_append, List.length_cons]
    omega

theorem length_lt_of_encloses {p q : Pointer} (h : p.encloses q) :
    p.steps.length < q.steps.length := by
  obtain ⟨step, rest, rfl⟩ := encloses_iff.1 h
  rw [List.length_append, List.length_cons]
  omega

theorem encloses_trans {p q r : Pointer} (hpq : p.encloses q) (hqr : q.encloses r) :
    p.encloses r := by
  obtain ⟨step, rest, rfl⟩ := encloses_iff.1 hpq
  obtain ⟨step', rest', rfl⟩ := encloses_iff.1 hqr
  exact encloses_iff.2 ⟨step, rest ++ step' :: rest', by simp⟩

theorem encloses_push (p : Pointer) (step : Step) : p.encloses (p.push step) :=
  encloses_iff.2 ⟨step, [], rfl⟩

theorem toList_text_append (p : Pointer) (rest : List Step) :
    (text ⟨p.component, p.steps ++ rest⟩).toList =
      p.text.toList ++ slashed (rest.flatMap Step.segments) := by
  rw [toList_text, toList_text]
  simp [slashed]

theorem text_lt_of_encloses {p q : Pointer} (h : p.encloses q) : p.text < q.text := by
  obtain ⟨step, rest, rfl⟩ := encloses_iff.1 h
  have hnonempty : slashed ((step :: rest).flatMap Step.segments) ≠ [] := by
    cases step <;> simp [slashed, Step.segments]
  obtain ⟨c, cs, hcs⟩ := List.exists_cons_of_ne_nil hnonempty
  have hlex := List.Lex.append_left (· < ·) (List.Lex.nil (a := c) (l := cs)) p.text.toList
  rw [List.append_nil, ← hcs, ← toList_text_append] at hlex
  exact hlex

/-- Whether a text goes on behind another one with a slash. -/
def Continues (outer inner : String) : Prop := ∃ rest, inner = outer ++ "/" ++ rest

/-- The text of a position goes on behind that of another one with a slash exactly if it lies
inside it. -/
theorem continues_text_iff {p q : Pointer} : Continues p.text q.text ↔ p.encloses q := by
  constructor
  · rintro ⟨rest, hrest⟩
    obtain ⟨first, segments, hsegments, hslashed⟩ := exists_slashed rest.toList
    have htext : q.text.toList = p.text.toList ++ slashed (first :: segments) := by
      rw [hrest, String.toList_append, String.toList_append, ← hslashed]
      simp
    obtain ⟨steps, rfl, hsteps⟩ := eq_of_toList_text hsegments htext
    cases steps with
    | nil => cases hsteps
    | cons step steps => exact encloses_iff.2 ⟨step, steps, rfl⟩
  · intro h
    obtain ⟨step, steps, rfl⟩ := encloses_iff.1 h
    obtain ⟨first, segments, hsegments⟩ := step.exists_segments
    refine ⟨String.ofList (first ++ slashed (segments ++ steps.flatMap Step.segments)), ?_⟩
    apply String.toList_injective
    rw [toList_text_append, List.flatMap_cons, hsegments]
    simp [slashed]

end Pointer

end SchemaModel
