import Mathlib.Data.List.Induction
import Mathlib.Data.Set.Finite.Basic
import Mathlib.Data.String.Basic
import Mathlib.Logic.Relation
import SchemaModel.Proofs.Resolve.Identity
import SchemaModel.Libraries.Standard

/-!
Renaming comes to an end (`Document.resolve_ends`). The name of a position depends on the new names
for it and for the positions around it, whose texts come before its own (`Scope.placeAt_eq`). A pass
gives names that no position has yet, so a collision in the next pass is due to a position that was
renamed before (`exists_earlier_renamed`). Hence the positions behind a renamed one get fewer from
pass to pass.
-/

namespace SchemaModel

namespace Scope

variable {scope scope' : Scope} {pointer : Pointer}

theorem enter_eq (hd : scope'.document = scope.document)
    (h : scope'.renames.lookup pointer = scope.renames.lookup pointer) (base : String) :
    scope'.enter pointer base = scope.enter pointer base := by
  funext node
  cases node with
  | ref path => rfl
  | schema s => rw [enter, enter, inlineName, inlineName, h, hd]

variable [Libraries]

theorem childPlace_eq (hd : scope'.document = scope.document)
    (h : scope'.renames.lookup pointer = scope.renames.lookup pointer) (place : Place)
    (step : Step) : scope'.childPlace pointer place step = scope.childPlace pointer place step := by
  unfold childPlace
  simp only [enter_eq hd h]

/-- What stands at a position, and under which name, is decided by the new names for the position
and for those around it. -/
theorem placeAt_eq (hd : scope'.document = scope.document)
    (h : ∀ q : Pointer, q = pointer ∨ q.encloses pointer →
      scope'.renames.lookup q = scope.renames.lookup q) :
    scope'.placeAt pointer = scope.placeAt pointer := by
  obtain ⟨component, steps⟩ := pointer
  induction steps using List.reverseRecOn with
  | nil => simp [placeAt, placeFrom, hd]
  | append_singleton steps step ih =>
    change scope'.placeAt (Pointer.push ⟨component, steps⟩ step) =
      scope.placeAt (Pointer.push ⟨component, steps⟩ step)
    have houter : scope'.placeAt ⟨component, steps⟩ = scope.placeAt ⟨component, steps⟩ := by
      apply ih
      intro q hq
      refine h q (.inr ?_)
      have hpush := Pointer.encloses_push ⟨component, steps⟩ step
      rcases hq with rfl | hq
      · exact hpush
      · exact Pointer.encloses_trans hq hpush
    rw [placeAt_push, placeAt_push, houter]
    congr 1
    funext place
    exact childPlace_eq hd (h _ (.inl rfl)) place step

end Scope

namespace Resolver

variable {scope : Scope} {order : List String} {r r' : Resolver} {name : String} {p q : Pointer}

/-- A position is known under a name. -/
def Called (r : Resolver) (name : String) (p : Pointer) : Prop :=
  ∃ s, (p, s) ∈ r.resolved ∧ s.name = name

theorem Called.position_eq (hn : r.inlineRenames = []) (h : r.Called name p)
    (h' : r.Called name q) : p = q := by
  obtain ⟨s, hs, rfl⟩ := h
  obtain ⟨t, ht, hname⟩ := h'
  exact position_eq_of_name hn hs ht hname.symm

theorem mem_collisions_iff :
    (name, p) ∈ r.collisions ↔ r.Called name p ∧ ∃ q, r.Called name q ∧ q.text < p.text := by
  have hbound : ∀ positions, r.boundNames.find? name = some positions → ∀ text q,
      positions.find? text = some q ↔ q.text = text ∧ r.Called name q := by
    intro positions hf text q
    have hto : r.boundTo name = positions := by rw [boundTo, hf, Option.getD_some]
    rw [← hto]
    exact find?_boundTo
  unfold collisions
  simp only [List.mem_flatMap, List.mem_map, Prod.mk.injEq]
  constructor
  · rintro ⟨⟨_, positions⟩, he, _, hp, rfl, rfl⟩
    have hf := NameMap.mem_toList_iff.1 he
    obtain ⟨text, other, q, htext, hother, hlt⟩ := NameMap.mem_drop_one_values_iff.1 hp
    obtain ⟨rfl, hcalled⟩ := (hbound _ hf _ _).1 htext
    obtain ⟨rfl, hq⟩ := (hbound _ hf _ _).1 hother
    exact ⟨hcalled, q, hq, hlt⟩
  · rintro ⟨hp, q, hq, hlt⟩
    obtain ⟨s, hs, hn⟩ := hp
    have hsome : (r.boundNames.find? name).isSome := isSome_find?_boundNames.2 ⟨_, hs, hn⟩
    obtain ⟨positions, hf⟩ := Option.isSome_iff_exists.1 hsome
    have hfindp := (hbound _ hf p.text p).2 ⟨rfl, s, hs, hn⟩
    have hfindq := (hbound _ hf q.text q).2 ⟨rfl, hq⟩
    refine ⟨(name, positions), NameMap.mem_toList_iff.2 hf, p, ?_, rfl, rfl⟩
    exact NameMap.mem_drop_one_values_iff.2 ⟨p.text, q.text, q, hfindp, hfindq, hlt⟩

section

variable [Libraries]

theorem Called.unique {other : String} (hr : Complete scope order r) (h : r.Called name p)
    (h' : r.Called other p) : name = other := by
  obtain ⟨s, hs, rfl⟩ := h
  obtain ⟨t, ht, rfl⟩ := h'
  rw [hr.resolved_eq hs ht]

/-- A position that is known belongs to a visited site. -/
theorem Called.site (hr : Complete scope order r) (h : r.Called name p) :
    ∃ site, scope.Visits order site ∧ site.pointer = p ∧ site.name = name := by
  obtain ⟨s, hs, rfl⟩ := h
  obtain ⟨site, shape, hv, -, he⟩ := hr.mem_resolved_iff.1 hs
  rw [Prod.mk.injEq] at he
  obtain ⟨rfl, rfl⟩ := he
  exact ⟨site, hv, rfl, rfl⟩

theorem Complete.called (hr : Complete scope order r) {site : Site}
    (hv : scope.Visits order site) : r.Called site.name site.pointer := by
  obtain ⟨s, hs⟩ := hr.knows site hv
  obtain ⟨shape, -, rfl⟩ := hr.sound.shape_eq hv hs
  exact ⟨_, hs, rfl⟩

theorem Complete.renamed_subset (hr : Complete scope order r) (h : p ∈ r.renamed) :
    p ∈ scope.document.positions := by
  obtain ⟨⟨name, hc⟩, -⟩ := mem_renamed_iff.1 h
  obtain ⟨site, hv, rfl, -⟩ := (mem_collisions_iff.1 hc).1.site hr
  exact Scope.mem_positions_of_placeAt hv.grounded.place

/-- Components have one position for each name, so a name with two positions is that of inline
schemas. -/
theorem Complete.inline_of_called (hr : Complete scope order r) (ha : scope.AvoidsComponents)
    {site : Site} (hv : scope.Visits order site) (hq : r.Called site.name q)
    (hne : q ≠ site.pointer) : site.inline := by
  by_contra hinline
  rw [Bool.not_eq_true] at hinline
  obtain ⟨other, ho, rfl, hname⟩ := hq.site hr
  have hcomponent := hv.grounded.component hinline
  have hmem := (hv.grounded.canonical hinline).mem_names
  cases hi : other.inline with
  | true =>
    obtain ⟨base, hcalled⟩ := ho.grounded.called hi
    rw [← hname, hcalled] at hmem
    exact ha.inlineName_notMem base other.pointer hmem
  | false =>
    rw [ho.grounded.component hi, hcomponent, hname] at hne
    exact hne rfl

section Consecutive

variable {d : Document} {renames : List (Pointer × String)}

/-- A position that is neither renamed nor inside a renamed one has had its name before. -/
theorem Called.before (hr : Complete ⟨d, renames⟩ order r)
    (hr' : Complete ⟨d, r.inlineRenames ++ renames⟩ order r') (h : r'.Called name p)
    (hkeeps : ∀ q ∈ r.renamed, q ≠ p ∧ ¬q.encloses p) : r.Called name p := by
  have hd : (Scope.mk d (r.inlineRenames ++ renames)).document = (Scope.mk d renames).document :=
    rfl
  obtain ⟨site', hv', rfl, rfl⟩ := h.site hr'
  obtain ⟨site, hv, hpointer, -⟩ := hv'.twin hd fun _ hv => hr.resolvable.outline hv
  have hplace : Scope.placeAt ⟨d, r.inlineRenames ++ renames⟩ site'.pointer =
      Scope.placeAt ⟨d, renames⟩ site'.pointer := by
    apply Scope.placeAt_eq hd
    intro q hq
    have hq' : q ∉ r.renamed := by
      intro hm
      obtain ⟨hne, hnot⟩ := hkeeps q hm
      exact hq.elim hne hnot
    have hnone : r.inlineRenames.lookup q = none := by
      rw [List.lookup_eq_none_iff]
      intro e he
      rw [bne_iff_ne]
      rintro rfl
      exact hq' (List.mem_map.2 ⟨e, he, rfl⟩)
    rw [List.lookup_append, hnone, Option.none_or]
  rw [hv'.grounded.place, ← hpointer, hv.grounded.place, Option.some.injEq,
    Place.owner.injEq] at hplace
  have hcalled := hr.called hv
  rwa [hpointer, ← hplace.1] at hcalled

/-- A position that is neither renamed nor inside a renamed one keeps its name. -/
theorem Called.after (hr : Complete ⟨d, renames⟩ order r)
    (hr' : Complete ⟨d, r.inlineRenames ++ renames⟩ order r') (h : r.Called name p)
    (hkeeps : ∀ q ∈ r.renamed, q ≠ p ∧ ¬q.encloses p) : r'.Called name p := by
  have hd : (Scope.mk d renames).document = (Scope.mk d (r.inlineRenames ++ renames)).document :=
    rfl
  obtain ⟨site, hv, rfl, rfl⟩ := h.site hr
  obtain ⟨site', hv', hpointer, -⟩ := hv.twin hd fun _ hv => hr'.resolvable.outline hv
  have hcalled := hr'.called hv'
  rw [hpointer] at hcalled
  have hbefore := hcalled.before hr hr' hkeeps
  rwa [hbefore.unique hr (hr.called hv)] at hcalled

omit [Libraries] in
/-- A new name is none that a position has. -/
theorem Called.ne_of_mem_renames (h : r.Called name q) {e : Pointer × String}
    (he : e ∈ r.inlineRenames) : e.2 ≠ name := by
  rintro rfl
  obtain ⟨s, hs, hname⟩ := h
  have hkey : e.2 ∈ r.boundNames.keys := by
    rw [NameMap.mem_keys_iff, ← Option.isSome_iff_exists, isSome_find?_boundNames]
    exact ⟨_, hs, hname⟩
  exact renameAll_notMem he (List.mem_append_right _ hkey)

/-- What is renamed gets none of the names before. -/
theorem not_called_of_renamed {site : Site}
    (hv : Scope.Visits ⟨d, r.inlineRenames ++ renames⟩ order site) (hi : site.inline)
    (hp : site.pointer ∈ r.renamed) : ¬r.Called site.name q := by
  intro h
  obtain ⟨base, hcalled⟩ := hv.grounded.called hi
  have hsome : (r.inlineRenames.lookup site.pointer).isSome := by
    rw [List.lookup_isSome_iff]
    obtain ⟨e, he, hep⟩ := List.mem_map.1 hp
    exact ⟨e, he, by simp [hep]⟩
  obtain ⟨new, hnew⟩ := Option.isSome_iff_exists.1 hsome
  rw [Scope.inlineName, List.lookup_append, hnew, Option.some_or] at hcalled
  exact h.ne_of_mem_renames (mem_of_lookup hnew) hcalled.symm

/-- A position is renamed only if another one with a smaller text was renamed before. -/
theorem exists_earlier_renamed (hr : Complete ⟨d, renames⟩ order r)
    (hr' : Complete ⟨d, r.inlineRenames ++ renames⟩ order r')
    (ha : Scope.AvoidsComponents ⟨d, r.inlineRenames ++ renames⟩) (hp : p ∈ r'.renamed) :
    ∃ q ∈ r.renamed, q.text < p.text := by
  obtain ⟨⟨name, hcollision⟩, -⟩ := mem_renamed_iff.1 hp
  obtain ⟨hcalled, q, hq, hlt⟩ := mem_collisions_iff.1 hcollision
  by_contra hnone
  simp only [not_exists, not_and] at hnone
  -- the other position of this name keeps it, since nothing before it was renamed
  have hqbefore : r.Called name q := by
    apply hq.before hr hr'
    intro x hx
    constructor
    · rintro rfl
      exact hnone x hx hlt
    · intro he
      exact hnone x hx (String.lt_trans (Pointer.text_lt_of_encloses he) hlt)
  by_cases hrenamed : p ∈ r.renamed
  · obtain ⟨site, hv, rfl, rfl⟩ := hcalled.site hr'
    have hne : q ≠ site.pointer := by
      rintro rfl
      exact String.lt_irrefl _ hlt
    have hinline := hr'.inline_of_called ha hv hq hne
    exact not_called_of_renamed hv hinline hrenamed hqbefore
  · have hpbefore : r.Called name p := by
      apply hcalled.before hr hr'
      intro x hx
      constructor
      · rintro rfl
        exact hrenamed hx
      · intro he
        exact hnone x hx (Pointer.text_lt_of_encloses he)
    -- both had the name before, so it was changed at `p` or around it
    obtain ⟨x, hx, hxp⟩ := exists_renamed (mem_collisions_iff.2 ⟨hpbefore, q, hqbefore, hlt⟩)
    rcases hxp with rfl | he
    · exact hrenamed hx
    · exact hnone x hx (Pointer.text_lt_of_encloses he)

end Consecutive

end

/-- The number of positions whose text comes after that of a renamed one. -/
def behind (d : Document) (renamed : List Pointer) : Nat :=
  (d.positions.filter fun p => renamed.any fun q => q.text < p.text).length

theorem exists_first {l : List Pointer} (h : l ≠ []) :
    ∃ p ∈ l, ∀ q ∈ l, ¬q.text < p.text := by
  induction l with
  | nil => exact absurd rfl h
  | cons p rest ih =>
    by_cases hrest : rest = []
    · subst hrest
      refine ⟨p, List.mem_cons_self, ?_⟩
      intro q hq
      rw [List.mem_singleton.1 hq]
      exact String.lt_irrefl _
    · obtain ⟨first, hfirst, hleast⟩ := ih hrest
      by_cases hlt : p.text < first.text
      · refine ⟨p, List.mem_cons_self, ?_⟩
        intro q hq hqp
        rcases List.mem_cons.1 hq with rfl | hq
        · exact String.lt_irrefl _ hqp
        · exact hleast q hq (String.lt_trans hqp hlt)
      · refine ⟨first, List.mem_cons_of_mem _ hfirst, ?_⟩
        intro q hq
        rcases List.mem_cons.1 hq with rfl | hq
        · exact hlt
        · exact hleast q hq

theorem behind_lt {d : Document} {renamed later : List Pointer} (hne : later ≠ [])
    (hpositions : ∀ p ∈ later, p ∈ d.positions)
    (hearlier : ∀ p ∈ later, ∃ q ∈ renamed, q.text < p.text) :
    behind d later < behind d renamed := by
  -- the first of the later ones is behind a renamed one, but behind none of the later ones
  obtain ⟨p, hp, hfirst⟩ := exists_first hne
  apply Document.length_filter_lt_of_mem _ (hpositions p hp)
  · simpa using hearlier p hp
  · simpa using hfirst
  · intro x hx
    simp only [List.any_eq_true, decide_eq_true_eq] at hx ⊢
    obtain ⟨y, hy, hyx⟩ := hx
    obtain ⟨z, hz, hzy⟩ := hearlier y hy
    exact ⟨z, hz, String.lt_trans hzy hyx⟩

theorem behind_le (d : Document) (renamed : List Pointer) :
    behind d renamed ≤ d.positions.length := List.length_filter_le _ _

variable [Libraries]

/-- What passes come to: the graph of one in which no two positions share a name, or the error of
one that fails. -/
inductive Ends (d : Document) (order : List String) : Except Stop Graph → Prop where
  | last {r : Resolver} (last : LastPass d order r) (apart : r.collisions = [])
      (distinct : ∀ name p q, r.Called name p → r.Called name q → p = q) :
      Ends d order (.ok r.toGraph)
  | failed {renames : List (Pointer × String)} {e : ModelError} (before : Rounds d order renames)
      (fails : pass ⟨d, renames⟩ order = .error (.failed e)) :
      Ends d order (.error (.failed e))

variable {d : Document} {renames : List (Pointer × String)}

/-- As long as a pass needs new names, the positions behind the renamed ones get fewer. -/
theorem passes_ends {fuel : Nat} (hresolvable : Resolvable ⟨d, []⟩ order)
    (hrounds : Rounds d order renames) (hfuel : 0 < fuel)
    (hbehind : ∀ r, pass ⟨d, renames⟩ order = .ok r → r.inlineRenames ≠ [] →
      behind d r.renamed + 1 < fuel) :
    Ends d order (passes fuel ⟨d, renames⟩ order) := by
  induction fuel generalizing renames with
  | zero => omega
  | succ fuel ih =>
    rw [passes]
    cases h : pass ⟨d, renames⟩ order with
    | error reason =>
      have hd : (Scope.mk d renames).document = (Scope.mk d []).document := rfl
      have hreason : ∃ e, reason = .failed e := by
        rcases pass_error hd hresolvable h with ⟨-, -, e, -, -, he⟩ | ⟨-, e, -, -, he⟩
        · exact ⟨e, he⟩
        · exact ⟨e, he⟩
      obtain ⟨e, rfl⟩ := hreason
      exact .failed hrounds h
    | ok r =>
      by_cases hn : r.inlineRenames = []
      · simp only [hn]
        exact .last ⟨renames, hrounds, h, hn⟩ (collisions_eq_nil hn) fun _ _ _ hp hq =>
          hp.position_eq hn hq
      · have hnext := hrounds.next h hn
        have hlater := hbehind r h hn
        have hends : Ends d order (passes fuel ⟨d, r.inlineRenames ++ renames⟩ order) := by
          apply ih hnext (by omega)
          intro r' h' hn'
          have hr' := pass_complete h'
          have hlt : behind d r'.renamed < behind d r.renamed := by
            apply behind_lt
            · simpa [renamed] using hn'
            · exact fun p hp => hr'.renamed_subset hp
            · exact fun p hp =>
                exists_earlier_renamed (pass_complete h) hr' hnext.avoidsComponents hp
          omega
        cases hl : r.inlineRenames with
        | nil => exact absurd hl hn
        | cons first rest =>
          rw [hl] at hends
          simp only [hl]
          exact hends

/-- After a first pass that succeeds, the passes come to an end. -/
theorem ends_of_pass {r : Resolver} (h : pass ⟨d, []⟩ order = .ok r) :
    Ends d order (d.resolve order) := by
  apply passes_ends (pass_succeeds_iff.1 ⟨r, h⟩) .start (by omega)
  intro r' hr' hn
  have hle := behind_le d r'.renamed
  omega

/-- The new names of a pass that needs some are put before those with which it started. -/
def Next (d : Document) (order : List String) (a b : List (Pointer × String)) : Prop :=
  ∃ r, pass ⟨d, a⟩ order = .ok r ∧ r.inlineRenames ≠ [] ∧ b = r.inlineRenames ++ a

theorem Rounds.reaches (h : Rounds d order renames) :
    Relation.ReflTransGen (Next d order) [] renames := by
  induction h with
  | start => exact .refl
  | next before resolves collides ih => exact ih.tail ⟨_, resolves, collides, rfl⟩

theorem next_rightUnique (d : Document) (order : List String) :
    Relator.RightUnique (Next d order) := by
  rintro a b c ⟨r, hr, -, rfl⟩ ⟨r', hr', -, rfl⟩
  rw [hr, Except.ok.injEq] at hr'
  rw [hr']

theorem suffix_of_reaches {a b : List (Pointer × String)}
    (h : Relation.ReflTransGen (Next d order) a b) : a <:+ b := by
  induction h with
  | refl => exact List.suffix_refl _
  | tail _ step ih =>
    obtain ⟨r, -, -, rfl⟩ := step
    exact ih.trans (List.suffix_append _ _)

/-- Passes follow one another in one way only, so all of them come before one with which they
end. -/
theorem Rounds.suffix (h : Rounds d order renames)
    (hend : ∀ r, pass ⟨d, renames⟩ order = .ok r → r.inlineRenames = [])
    {before : List (Pointer × String)} (hbefore : Rounds d order before) : before <:+ renames := by
  rcases Relation.ReflTransGen.total_of_right_unique (next_rightUnique d order) hbefore.reaches
    h.reaches with hpath | hpath
  · exact suffix_of_reaches hpath
  · rcases hpath.cases_head with rfl | ⟨next, ⟨r, hr, hcollides, -⟩, -⟩
    · exact List.suffix_refl _
    · exact absurd (hend r hr) hcollides

theorem Rounds.finite (h : Rounds d order renames)
    (hend : ∀ r, pass ⟨d, renames⟩ order = .ok r → r.inlineRenames = []) :
    {before | Rounds d order before}.Finite := by
  apply (List.finite_toSet renames.tails).subset
  intro before hbefore
  change before ∈ renames.tails
  rw [List.mem_tails]
  exact h.suffix hend hbefore

theorem Ends.finite {result : Except Stop Graph} (h : Ends d order result) :
    {renames | Rounds d order renames}.Finite := by
  cases h with
  | @last r last =>
    obtain ⟨renames, hrounds, hpass, hn⟩ := last
    apply hrounds.finite
    intro r' hr'
    rw [hpass, Except.ok.injEq] at hr'
    rw [← hr', hn]
  | failed before fails =>
    apply before.finite
    intro r hr
    rw [fails] at hr
    cases hr

end Resolver

/-- If the first pass ends, with a result or an error, then there are finitely many passes. The last
one has no two positions of one name, and its graph is the result, or it fails. -/
theorem Document.resolve_ends [Libraries] {d : Document} {order : List String}
    (h : Resolver.pass ⟨d, []⟩ order ≠ .error .unfinished) :
    {renames | Resolver.Rounds d order renames}.Finite ∧
      Resolver.Ends d order (d.resolve order) := by
  have hends : Resolver.Ends d order (d.resolve order) := by
    cases hfirst : Resolver.pass ⟨d, []⟩ order with
    | error reason =>
      cases reason with
      | unfinished => exact absurd hfirst h
      | failed e =>
        have hresolve : d.resolve order = .error (.failed e) := by
          rw [resolve, Resolver.passes, hfirst]
        rw [hresolve]
        exact .failed .start hfirst
    | ok r => exact Resolver.ends_of_pass hfirst
  exact ⟨hends.finite, hends⟩

theorem resolve_ends_shared_name :
    Resolver.pass ⟨sharedName, []⟩ ["AB", "A"] ≠ .error .unfinished ∧
      {renames | Resolver.Rounds sharedName ["AB", "A"] renames}.Finite ∧
      ∃ r, Resolver.LastPass sharedName ["AB", "A"] r ∧ r.collisions = [] ∧
        sharedName.resolve ["AB", "A"] = .ok r.toGraph ∧
        r.toGraph.schemas.keys = ["A", "AB", "ABC", "ABC2"] := by
  obtain ⟨g, hg, hkeys⟩ := sharedName_resolves
  have hfirst : Resolver.pass ⟨sharedName, []⟩ ["AB", "A"] ≠ .error .unfinished := by
    intro h
    rw [Document.resolve, Resolver.passes, h] at hg
    cases hg
  obtain ⟨hfinite, hends⟩ := Document.resolve_ends hfirst
  rw [hg] at hends
  cases hends with
  | @last r hlast hapart hdistinct => exact ⟨hfirst, hfinite, r, hlast, hapart, hg, hkeys⟩

end SchemaModel
