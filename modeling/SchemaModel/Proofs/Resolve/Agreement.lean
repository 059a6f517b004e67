import Mathlib.Data.List.Induction
import SchemaModel.Proofs.Pointer
import SchemaModel.Proofs.Resolve.Pass
import SchemaModel.Proofs.Resolve.Reordering

/-!
Passes over the same components in different orders agree: they know the same schemas, the same
aliases and the same warnings. Names are given by position and not by order, so the new names for
colliding positions agree as well, and with them all passes that follow.
-/

namespace SchemaModel

section

variable [Libraries]

namespace Scope

variable {d d' : Document} {renames : List (Pointer × String)} {order order' : List String}

theorem Visits.reorder (h : d.components.Perm d'.components)
    (ho : ∀ name ∈ order, name ∈ order') {site : Site}
    (hv : Visits ⟨d, renames⟩ order site) : Visits ⟨d', renames⟩ order' site := by
  induction hv with
  | component mem follows definition =>
    refine .component (ho _ mem) ?_ ((Document.definition?_eq_of_perm h _).symm.trans definition)
    exact (Document.followFrom_eq_of_perm h _ _ _).symm.trans follows
  | same visits outline definition ih =>
    refine .same ih ?_ ((Document.definition?_eq_of_perm h _).symm.trans definition)
    rw [outlineAt, ← outline_eq_of_perm h]
    exact outline
  | @inside site shape inlines i visits outline mem ih =>
    have ho' : (outlineAt ⟨d', renames⟩ site).outcome = .ok (.shape shape inlines) := by
      rw [outlineAt, ← outline_eq_of_perm h]
      exact outline
    exact .inside ih ho' mem

theorem ShapeWithin.reorder (h : d.components.Perm d'.components) {n : Nat} {site : Site}
    {shape : Shape} (hw : ShapeWithin ⟨d, renames⟩ n site shape) :
    ShapeWithin ⟨d', renames⟩ n site shape := by
  induction hw with
  | own outline =>
    apply ShapeWithin.own
    rw [outlineAt, ← outline_eq_of_perm h]
    exact outline
  | same outline definition within ih =>
    refine .same ?_ ((Document.definition?_eq_of_perm h _).symm.trans definition) ih
    rw [outlineAt, ← outline_eq_of_perm h]
    exact outline

theorem HasShape.reorder (h : d.components.Perm d'.components) {site : Site} {shape : Shape}
    (hs : HasShape ⟨d, renames⟩ site shape) : HasShape ⟨d', renames⟩ site shape := by
  obtain ⟨n, hw⟩ := hs
  exact ⟨n, hw.reorder h⟩

end Scope

end

namespace Resolver

variable {r r' : Resolver}

/-- What two passes over the same components have in common. -/
structure Agrees (r r' : Resolver) : Prop where
  names : r.scope.document.names.Perm r'.scope.document.names
  renames : r.scope.renames = r'.scope.renames
  resolved : ∀ e, e ∈ r.resolved ↔ e ∈ r'.resolved
  aliases : r.aliases = r'.aliases
  warnings : r.warnings.Perm r'.warnings

section

variable [Libraries]

section Reordered

variable {d d' : Document} {renames : List (Pointer × String)} {order order' : List String}

theorem Resolvable.reorder (h : d.components.Perm d'.components)
    (ho : ∀ name, name ∈ order ↔ name ∈ order') (hr : Resolvable ⟨d, renames⟩ order) :
    Resolvable ⟨d', renames⟩ order' where
  follows name hm := by
    obtain ⟨target, ht⟩ := hr.follows name ((ho name).2 hm)
    exact ⟨target, (Document.followFrom_eq_of_perm h _ _ _).symm.trans ht⟩
  shapes site hv := by
    obtain ⟨shape, hs⟩ := hr.shapes site (hv.reorder h.symm fun name hm => (ho name).2 hm)
    exact ⟨shape, hs.reorder h⟩

/-- One direction of what two passes agree on. -/
theorem Complete.resolved_subset (hr : Complete ⟨d, renames⟩ order r)
    (hr' : Complete ⟨d', renames⟩ order' r') (h : d.components.Perm d'.components)
    (ho : ∀ name ∈ order, name ∈ order') {e : Pointer × Resolved} (he : e ∈ r.resolved) :
    e ∈ r'.resolved := by
  obtain ⟨site, shape, hv, hs, rfl⟩ := hr.mem_resolved_iff.1 he
  exact hr'.mem_resolved_iff.2 ⟨site, shape, hv.reorder h ho, hs.reorder h, rfl⟩

theorem Complete.warnings_subset (hr : Complete ⟨d, renames⟩ order r)
    (hr' : Complete ⟨d', renames⟩ order' r') (h : d.components.Perm d'.components)
    (ho : ∀ name ∈ order, name ∈ order') {w : Warning} (hw : w ∈ r.warnings) :
    w ∈ r'.warnings := by
  obtain ⟨site, hv, hw⟩ := hr.mem_warnings_iff.1 hw
  refine hr'.mem_warnings_iff.2 ⟨site, hv.reorder h ho, ?_⟩
  rw [Scope.outlineAt, ← Scope.outline_eq_of_perm h]
  exact hw

theorem Complete.agrees (hr : Complete ⟨d, renames⟩ order r)
    (hr' : Complete ⟨d', renames⟩ order' r') (h : d.components.Perm d'.components)
    (ho : ∀ name, name ∈ order ↔ name ∈ order') : Agrees r r' where
  names := by
    rw [hr.sound.scope_eq, hr'.sound.scope_eq]
    exact Document.names_perm h
  renames := by rw [hr.sound.scope_eq, hr'.sound.scope_eq]
  resolved e := ⟨hr.resolved_subset hr' h fun name hm => (ho name).1 hm,
    hr'.resolved_subset hr h.symm fun name hm => (ho name).2 hm⟩
  aliases := by
    apply NameMap.ext
    intro name
    apply Option.ext
    intro target
    rw [hr.find?_aliases, hr'.find?_aliases, ho]
    simp only [Document.followAlias, Document.followFrom_eq_of_perm h]
  warnings := by
    rw [List.perm_ext_iff_of_nodup hr.sound.nodup hr'.sound.nodup]
    intro w
    exact ⟨hr.warnings_subset hr' h fun name hm => (ho name).1 hm,
      hr'.warnings_subset hr h.symm fun name hm => (ho name).2 hm⟩

end Reordered

end

/-- The positions known under a name, by their texts. -/
def boundTo (r : Resolver) (name : String) : NameMap Pointer :=
  (r.boundNames.find? name).getD .empty

theorem boundNames_append (r : Resolver) (rest : List (Pointer × Resolved))
    (e : Pointer × Resolved) :
    boundNames { r with resolved := rest ++ [e] } =
      (boundNames { r with resolved := rest }).insert e.2.name
        ((boundTo { r with resolved := rest } e.2.name).insert e.1.text e.1) := by
  simp only [boundNames, boundTo, List.foldl_append, List.foldl_cons, List.foldl_nil]

/-- The fold over the resolved schemas collects their positions under their names. A text belongs
to one position, so no position is lost to another one. -/
theorem find?_boundTo {r : Resolver} {name text : String} {pointer : Pointer} :
    (r.boundTo name).find? text = some pointer ↔
      pointer.text = text ∧ ∃ s, (pointer, s) ∈ r.resolved ∧ s.name = name := by
  obtain ⟨memory, scope, resolved, aliases, pending⟩ := r
  induction resolved using List.reverseRecOn with
  | nil => simp [boundTo, boundNames]
  | append_singleton rest e ih =>
    obtain ⟨at_, s⟩ := e
    have happ := boundNames_append ⟨memory, scope, [], aliases, pending⟩ rest (at_, s)
    simp only at happ
    rw [boundTo, happ, NameMap.find?_insert]
    have hmem : (∃ t, (pointer, t) ∈ rest ++ [(at_, s)] ∧ t.name = name) ↔
        (∃ t, (pointer, t) ∈ rest ∧ t.name = name) ∨ (pointer = at_ ∧ s.name = name) := by
      simp only [List.mem_append, List.mem_singleton, Prod.mk.injEq]
      grind
    rw [hmem]
    -- the last schema is noted over the earlier ones of its name
    by_cases hname : name = s.name
    · rw [if_pos hname, Option.getD_some, NameMap.find?_insert]
      by_cases htext : text = at_.text
      · rw [if_pos htext, Option.some.injEq]
        constructor
        · rintro rfl
          exact ⟨htext.symm, .inr ⟨rfl, hname.symm⟩⟩
        · rintro ⟨hp, -⟩
          exact (Pointer.text_injective (hp.trans htext)).symm
      · rw [if_neg htext, ← hname, ih]
        constructor
        · rintro ⟨hp, h⟩
          exact ⟨hp, .inl h⟩
        · rintro ⟨hp, h | ⟨rfl, -⟩⟩
          · exact ⟨hp, h⟩
          · exact absurd hp.symm htext
    · rw [if_neg hname]
      change (boundTo ⟨memory, scope, rest, aliases, pending⟩ name).find? text = _ ↔ _
      rw [ih]
      constructor
      · rintro ⟨hp, h⟩
        exact ⟨hp, .inl h⟩
      · rintro ⟨hp, h | ⟨-, h⟩⟩
        · exact ⟨hp, h⟩
        · exact absurd h.symm hname

theorem isSome_find?_boundNames {r : Resolver} {name : String} :
    (r.boundNames.find? name).isSome ↔ ∃ e ∈ r.resolved, e.2.name = name := by
  obtain ⟨memory, scope, resolved, aliases, pending⟩ := r
  induction resolved using List.reverseRecOn with
  | nil => simp [boundNames]
  | append_singleton rest e ih =>
    have happ := boundNames_append ⟨memory, scope, [], aliases, pending⟩ rest e
    simp only at happ ih
    rw [happ, NameMap.find?_insert]
    by_cases hname : name = e.2.name
    · simp only [if_pos hname, Option.isSome_some, true_iff]
      exact ⟨e, by simp, hname.symm⟩
    · rw [if_neg hname, ih]
      constructor
      · rintro ⟨f, hf, h⟩
        exact ⟨f, List.mem_append_left _ hf, h⟩
      · rintro ⟨f, hf, h⟩
        rcases List.mem_append.1 hf with hf | hf
        · exact ⟨f, hf, h⟩
        · rw [List.mem_singleton.1 hf] at h
          exact absurd h.symm hname

theorem Agrees.boundNames_eq (h : Agrees r r') : r.boundNames = r'.boundNames := by
  have hto : ∀ name, r.boundTo name = r'.boundTo name := by
    intro name
    apply NameMap.ext
    intro text
    apply Option.ext
    intro pointer
    simp only [find?_boundTo, h.resolved]
  apply NameMap.ext
  intro name
  have hsome : (r.boundNames.find? name).isSome ↔ (r'.boundNames.find? name).isSome := by
    simp only [isSome_find?_boundNames, h.resolved]
  have hname := hto name
  unfold boundTo at hname
  cases hr : r.boundNames.find? name <;> cases hr' : r'.boundNames.find? name
  · rfl
  · simp [hr, hr'] at hsome
  · simp [hr, hr'] at hsome
  · simpa [hr, hr'] using hname

theorem renameAll_eq_of_perm {used used' : List String} (h : used.Perm used')
    (colliding : List (String × Pointer)) :
    renameAll used colliding = renameAll used' colliding := by
  induction colliding generalizing used used' with
  | nil => rfl
  | cons e rest ih =>
    obtain ⟨name, pointer⟩ := e
    rw [renameAll, renameAll, Naming.fresh_eq_of_perm h]
    simp only [ih (h.cons _)]

/-- The new names are given in name order, which no order of the components changes. -/
theorem Agrees.inlineRenames_eq (h : Agrees r r') : r.inlineRenames = r'.inlineRenames := by
  unfold inlineRenames
  simp only [collisions, h.boundNames_eq]
  exact renameAll_eq_of_perm (h.names.append_right _) _

end Resolver

/-- Graphs that differ in the order of their warnings at most. -/
structure Graph.Agrees (g g' : Graph) : Prop where
  schemas : g.schemas = g'.schemas
  aliases : g.aliases = g'.aliases
  warnings : g.warnings.Perm g'.warnings

variable [Libraries]

namespace Resolver

omit [Libraries] in
theorem Agrees.toGraph {r r' : Resolver} (h : Agrees r r')
    (hs : SingleValued (r.resolved.map fun e => (e.1.text, e.2))) :
    r.toGraph.Agrees r'.toGraph where
  schemas := by
    have hmem : ∀ e, e ∈ (r.resolved.map fun e => (e.1.text, e.2)) ↔
        e ∈ (r'.resolved.map fun e => (e.1.text, e.2)) := by
      intro e
      simp only [List.mem_map, h.resolved]
    simp only [Resolver.toGraph, NameMap.ofList_eq_of_mem_iff hs hmem]
  aliases := h.aliases
  warnings := h.warnings

/-- No position is resolved to two schemas. -/
theorem Complete.singleValued {scope : Scope} {order : List String} {r : Resolver}
    (hr : Complete scope order r) : SingleValued (r.resolved.map fun e => (e.1.text, e.2)) := by
  intro text a b ha hb
  obtain ⟨⟨p, a⟩, hma, hea⟩ := List.mem_map.1 ha
  obtain ⟨⟨q, b⟩, hmb, heb⟩ := List.mem_map.1 hb
  cases hea
  simp only [Prod.mk.injEq] at heb
  obtain ⟨hq, rfl⟩ := heb
  have hpq := Pointer.text_injective hq
  subst hpq
  obtain ⟨site, shape, hv, hshape, he⟩ := hr.mem_resolved_iff.1 hma
  rw [Prod.mk.injEq] at he
  obtain ⟨rfl, rfl⟩ := he
  obtain ⟨shape', hshape', rfl⟩ := hr.sound.shape_eq hv hmb
  rw [hshape.unique hshape']

variable {d d' : Document} {order order' : List String}

theorem pass_agrees {renames : List (Pointer × String)} (h : d.components.Perm d'.components)
    (ho : ∀ name, name ∈ order ↔ name ∈ order') :
    (∃ r r', pass ⟨d, renames⟩ order = .ok r ∧ pass ⟨d', renames⟩ order' = .ok r' ∧
      Complete ⟨d, renames⟩ order r ∧ Agrees r r') ∨
    ∃ e e', pass ⟨d, renames⟩ order = .error e ∧ pass ⟨d', renames⟩ order' = .error e' := by
  -- what a pass needs does not depend on the order, so both succeed or both fail
  by_cases hr : Resolvable ⟨d, renames⟩ order
  · obtain ⟨r, h₁⟩ := pass_succeeds_iff.2 hr
    obtain ⟨r', h₂⟩ := pass_succeeds_iff.2 (hr.reorder h ho)
    have hc := pass_complete h₁
    exact .inl ⟨r, r', h₁, h₂, hc, hc.agrees (pass_complete h₂) h ho⟩
  · have hr' : ¬ Resolvable ⟨d', renames⟩ order' := fun hr' =>
      hr (hr'.reorder h.symm fun name => (ho name).symm)
    cases h₁ : pass ⟨d, renames⟩ order with
    | ok r => exact absurd (pass_succeeds_iff.1 ⟨r, h₁⟩) hr
    | error e =>
      cases h₂ : pass ⟨d', renames⟩ order' with
      | ok r => exact absurd (pass_succeeds_iff.1 ⟨r, h₂⟩) hr'
      | error e' => exact .inr ⟨e, e', rfl, rfl⟩

/-- Passes agree from first to last: as long as positions collide, they collide in both. -/
theorem passes_agree {fuel : Nat} {renames : List (Pointer × String)}
    (h : d.components.Perm d'.components) (ho : ∀ name, name ∈ order ↔ name ∈ order') :
    (∃ g g', passes fuel ⟨d, renames⟩ order = .ok g ∧ passes fuel ⟨d', renames⟩ order' = .ok g' ∧
      g.Agrees g') ∨
    ∃ e e', passes fuel ⟨d, renames⟩ order = .error e ∧
      passes fuel ⟨d', renames⟩ order' = .error e' := by
  induction fuel generalizing renames with
  | zero => exact .inr ⟨_, _, rfl, rfl⟩
  | succ fuel ih =>
    rw [passes, passes]
    -- equal new names, so the next passes start from the same renames
    rcases @pass_agrees _ d d' order order' renames h ho with
      ⟨r, r', h₁, h₂, hc, ha⟩ | ⟨e, e', h₁, h₂⟩
    · simp only [h₁, h₂, ← ha.inlineRenames_eq]
      cases hn : r.inlineRenames with
      | nil => exact .inl ⟨_, _, rfl, rfl, ha.toGraph hc.singleValued⟩
      | cons first rest => exact ih
    · simp only [h₁, h₂]
      exact .inr ⟨e, e', rfl, rfl⟩

end Resolver

theorem Document.resolve_agrees {d d' : Document} {order order' : List String}
    (h : d.components.Perm d'.components) (ho : ∀ name, name ∈ order ↔ name ∈ order') :
    (∃ g g', d.resolve order = .ok g ∧ d'.resolve order' = .ok g' ∧ g.Agrees g') ∨
    ∃ e e', d.resolve order = .error e ∧ d'.resolve order' = .error e' := by
  unfold resolve
  rw [← (positions_perm h).length_eq]
  exact Resolver.passes_agree h ho

end SchemaModel
