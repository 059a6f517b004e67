import SchemaModel.Proofs.Computed
import SchemaModel.Proofs.Resolve.OtherNames
import SchemaModel.Proofs.Resolve.Parts
import SchemaModel.Proofs.Resolve.Renaming

/-!
What new names can break. A pass that starts with other names than one that succeeds finds all
that the first one finds, up to names; only where it merges an object it compares types, and so
names. So it fails only where parts of an object declare a key with different types
(`Scope.merging_clashes`), and resolution succeeds after its first pass exactly if no later pass
comes to such parts (`Document.resolve_succeeds_iff`).
-/

namespace SchemaModel

open Relation

/-- The error reports two declarations of one key with different types. -/
def Clashes (declared : ResolvedProperty → Prop) (e : ModelError) : Prop :=
  ∃ name p q, declared p ∧ declared q ∧ p.key = q.key ∧ p.type ≠ q.type ∧
    e = .conflictingType name q.key p.type.text q.type.text

theorem Clashes.mono {declared declared' : ResolvedProperty → Prop} {e : ModelError}
    (h : Clashes declared e) (hd : ∀ p, declared p → declared' p) : Clashes declared' e := by
  obtain ⟨name, p, q, hp, hq, hk, hne, he⟩ := h
  exact ⟨name, p, q, hd p hp, hd q hq, hk, hne, he⟩

namespace ObjectShape

variable {declared : ResolvedProperty → Prop} {name : String} {o branch : ObjectShape}
  {e : ModelError}

theorem clashes_of_declare {p : ResolvedProperty} (ho : ∀ q ∈ o.properties, declared q)
    (hp : declared p) (h : o.declare name p = .error e) : Clashes declared e := by
  unfold declare at h
  split at h
  · rename_i old hold
    split at h
    · cases h
    · rename_i hne
      cases h
      have hk : old.key = p.key := by simpa using List.find?_some hold
      exact ⟨name, old, p, ho old (List.mem_of_find?_eq_some hold), hp, hk, hne, rfl⟩
  · cases h

theorem forall_mem_of_declare {p : ResolvedProperty} {o' : ObjectShape}
    (ho : ∀ q ∈ o.properties, declared q) (hp : declared p) (h : o.declare name p = .ok o') :
    ∀ q ∈ o'.properties, declared q := by
  intro q hq
  rw [declare_eq_ok h] at hq
  rcases mem_of_mem_put hq with rfl | hq
  · exact hp
  · exact ho q hq

theorem clashes_of_foldlM_declare {properties : List ResolvedProperty}
    (ho : ∀ q ∈ o.properties, declared q) (hp : ∀ q ∈ properties, declared q)
    (h : properties.foldlM (declare name) o = .error e) : Clashes declared e := by
  induction properties generalizing o with
  | nil => cases h
  | cons p rest ih =>
    have hfirst := hp p List.mem_cons_self
    rw [List.foldlM_cons] at h
    rcases bind_eq_error_iff.1 h with h₁ | ⟨o₁, h₁, h⟩
    · exact clashes_of_declare ho hfirst h₁
    · exact ih (forall_mem_of_declare ho hfirst h₁)
        (fun q hq => hp q (List.mem_cons_of_mem _ hq)) h

theorem clashes_of_merge {inlineBranch : Bool} (ho : ∀ q ∈ o.properties, declared q)
    (hb : ∀ q ∈ branch.properties, declared q) (h : o.merge name branch inlineBranch = .error e) :
    Clashes declared e := by
  unfold merge at h
  rcases bind_eq_error_iff.1 h with h | ⟨o₁, -, h⟩
  · exact clashes_of_foldlM_declare ho hb h
  · cases h

theorem forall_mem_of_merge {inlineBranch : Bool} {o' : ObjectShape}
    (ho : ∀ q ∈ o.properties, declared q) (hb : ∀ q ∈ branch.properties, declared q)
    (h : o.merge name branch inlineBranch = .ok o') : ∀ q ∈ o'.properties, declared q := by
  intro q hq
  rw [merge_eq_ok h] at hq
  rcases mem_of_mem_foldl_put hq with hq | hq
  · exact hb q hq
  · exact ho q hq

end ObjectShape

section

variable [Libraries]

namespace Scope

variable {scope scope' : Scope} {declared : ResolvedProperty → Prop} {e : ModelError}

theorem clashes_of_declareOwn (hd : scope'.document = scope.document) {name name' : String}
    {pointer : Pointer} {o o' a : ObjectShape} {declarations : List (String × Node)}
    (ho : ∀ q ∈ o'.properties, declared q)
    (hown : ∀ q node, (q.key, node) ∈ declarations →
      (scope'.resolveProperty name' pointer q.key node).outcome = .ok q → declared q)
    (h : (scope.declareOwn name pointer o declarations).outcome = .ok a)
    (h' : (scope'.declareOwn name' pointer o' declarations).outcome = .error e) :
    Clashes declared e := by
  induction declarations generalizing o o' with
  | nil => cases h'
  | cons first rest ih =>
    obtain ⟨key, node⟩ := first
    unfold declareOwn at h h'
    simp only [Traced.outcome_bind_eq_ok_iff, Traced.outcome_lift] at h
    simp only [Traced.outcome_bind_eq_error_iff, Traced.outcome_lift] at h'
    obtain ⟨p, hp, o₁, -, h⟩ := h
    obtain ⟨p', hp'⟩ := @resolveProperty_rename scope scope' name name' pointer _ hd key node p hp
    rcases h' with hfails | ⟨q, hq, h'⟩
    · rw [hp'] at hfails
      cases hfails
    · have hdeclared : declared q := by
        obtain ⟨-, rfl, -⟩ := resolveProperty_eq_ok hq
        exact hown q node List.mem_cons_self hq
      rcases h' with h₁' | ⟨o₁', h₁', h'⟩
      · exact ObjectShape.clashes_of_declare ho hdeclared h₁'
      · exact ih (ObjectShape.forall_mem_of_declare ho hdeclared h₁')
          (fun q node hm => hown q node (List.mem_cons_of_mem _ hm)) h h'

theorem clashes_of_mergeOwn (hd : scope'.document = scope.document) {name : String} {part : Site}
    {o o' a : ObjectShape} (ho : ∀ q ∈ o'.properties, declared q)
    (hown : ∀ q, scope'.DeclaredBy part q → declared q)
    (h : (scope.mergeOwn name part.pointer part.schema o).outcome = .ok a)
    (h' : (scope'.mergeOwn part.name part.pointer part.schema o').outcome = .error e) :
    Clashes declared e := by
  obtain ⟨o₁, additional, h₁, ha, -⟩ := mergeOwn_eq_ok h
  unfold mergeOwn at h'
  rw [Traced.outcome_bind_eq_error_iff] at h'
  rcases h' with h₁' | ⟨o₁', -, h'⟩
  · exact clashes_of_declareOwn hd ho (fun q node hm hq => hown q ⟨node, hm, hq⟩) h₁ h₁'
  · rcases ha with ⟨hs, -⟩ | ⟨own, hs, ha⟩
    · rw [hs] at h'
      cases h'
    · obtain ⟨a', ha'⟩ :=
        @additionalType_rename scope scope' name part.name part.pointer hd own _ ha
      simp only [hs, Traced.outcome_bind_eq_error_iff, ha'] at h'
      rcases h' with h' | ⟨additional', -, h'⟩
      · cases h'
      · cases h'

/-- A merge that succeeds under other names fails only where parts clash. -/
theorem merging_clashes (hd : scope'.document = scope.document) :
    (∀ path name pointer s o, (scope.mergeSchema path name pointer s).outcome = .ok o →
      ∀ (path' : MergePath) name' inline e, path'.components = path.components →
        (scope'.mergeSchema path' name' pointer s).outcome = .error e →
          Clashes (scope'.DeclaredIn ⟨name', pointer, inline, s⟩) e) ∧
    (∀ path name pointer index branches o a,
      (scope.mergeBranches path name pointer index branches o).outcome = .ok a →
      ∀ (path' : MergePath) name' inline s o' e, path'.components = path.components →
        (∀ q ∈ o'.properties, scope'.DeclaredIn ⟨name', pointer, inline, s⟩ q) →
        (∀ child, scope'.document.Among ⟨name', pointer, inline, s⟩ index branches child →
          scope'.document.Branch ⟨name', pointer, inline, s⟩ child) →
        (scope'.mergeBranches path' name' pointer index branches o').outcome = .error e →
          Clashes (scope'.DeclaredIn ⟨name', pointer, inline, s⟩) e) ∧
    ∀ path name o, (scope.mergeComponent path name).outcome = .ok o →
      ∀ (path' : MergePath) s e, path'.components = path.components →
        scope.document.definition? name = some s →
        (scope'.mergeComponent path' name).outcome = .error e →
          Clashes (scope'.DeclaredIn (.ofComponent name s)) e := by
  have hcollects := merging_collects scope'
  apply merging_induction
  case own =>
    intro path name pointer s merged o hmerged hown ih path' name' inline e hpath h'
    rw [mergeSchema, Traced.outcome_bind_eq_error_iff] at h'
    rcases h' with h₁' | ⟨o₁', h₁', h'⟩
    · exact ih path' name' inline s .empty e hpath (by simp [ObjectShape.empty])
        (fun child hc => hc) h₁'
    · have hbranches := hcollects.2.1 _ _ _ _ _ _ _ h₁' inline s _ _ .empty
      refine @clashes_of_mergeOwn _ scope scope' _ e hd name ⟨name', pointer, inline, s⟩ merged o₁'
        o ?_ ?_ hown h'
      · intro q hq
        rcases hbranches.declares q hq with hq | hq
        · exact hq.elim
        · exact Document.exists_part_iff.2 (.inr hq)
      · intro q hq
        exact ⟨_, .refl, hq⟩
  case nil =>
    intro path name pointer index o path' name' inline s o' e hpath ho hbranch h'
    rw [mergeBranches] at h'
    cases h'
  case ref =>
    intro path name pointer index target rest o parent inherited merged a hr hi hm ihc ihr path'
      name' inline s o' e hpath ho hbranch h'
    simp only [mergeBranches, Traced.outcome_bind_eq_error_iff, Traced.outcome_lift] at h'
    have hr' : scope'.document.resolveRef name' target = .ok parent := by
      rw [hd]
      exact Document.resolveRef_context hr
    obtain ⟨t, ht, -⟩ := (Document.canonical_of_resolveRef hr).definition
    rw [← hd] at ht
    have hchild := hbranch _ (Document.among_cons.2 (.inl (.component hr' ht)))
    rcases h' with hfails | ⟨parent', hparent, h'⟩
    · rw [hr'] at hfails
      cases hfails
    · rw [hr', Except.ok.injEq] at hparent
      subst hparent
      rcases h' with hfails | ⟨inherited', hi', h'⟩
      · rw [hd] at ht
        exact (ihc path' t e hpath ht hfails).mono fun q hq => hq.of_branch hchild
      · have hinherited : ∀ q ∈ inherited'.properties,
            scope'.DeclaredIn ⟨name', pointer, inline, s⟩ q :=
          fun q hq => ((hcollects.2.2 _ _ _ hi' t ht).declares q hq).of_branch hchild
        rcases h' with hfails | ⟨o₁', hm', h'⟩
        · exact ObjectShape.clashes_of_merge ho hinherited hfails
        · have hmerged := ObjectShape.forall_mem_of_merge ho hinherited hm'
          refine ihr path' name' inline s _ e hpath ?_ ?_ h'
          · exact hmerged
          · exact fun child hc => hbranch child (Document.among_cons.2 (.inr hc))
  case inline =>
    intro path name pointer index inner rest o inherited merged a hm ihs ihr path' name' inline s o'
      e hpath ho hbranch h'
    simp only [mergeBranches, Traced.outcome_bind_eq_error_iff, Traced.outcome_lift] at h'
    have hchild := hbranch _ (Document.among_cons.2 (.inl (.inline inner)))
    rcases h' with hfails | ⟨inherited', hi', h'⟩
    · refine (ihs _ name' inline e ?_ hfails).mono fun q hq => hq.of_branch hchild
      rw [MergePath.components_append, MergePath.components_append, hpath]
      rfl
    · have hinherited : ∀ q ∈ inherited'.properties,
          scope'.DeclaredIn ⟨name', pointer, inline, s⟩ q :=
        fun q hq => ((hcollects.1 _ _ _ _ _ hi' inline).declares q hq).of_branch hchild
      rcases h' with hfails | ⟨o₁', hm', h'⟩
      · exact ObjectShape.clashes_of_merge ho hinherited hfails
      · have hmerged := ObjectShape.forall_mem_of_merge ho hinherited hm'
        refine ihr path' name' inline s _ e hpath ?_ ?_ h'
        · exact hmerged
        · exact fun child hc => hbranch child (Document.among_cons.2 (.inr hc))
  case found =>
    intro path name t o hp ht ih path' s e hpath hs h'
    rw [ht, Option.some.injEq] at hs
    subst hs
    rw [mergeComponent_eq, hpath, if_neg hp, hd, ht] at h'
    refine ih _ _ false e ?_ h'
    rw [MergePath.components_append, MergePath.components_append, hpath]

variable {name name' : String} {pointer : Pointer} {s : Schema}

theorem clashes_of_objectShape (hd : scope'.document = scope.document) {o : ObjectShape}
    (h : (scope.objectShape name pointer s).outcome = .ok o)
    (h' : (scope'.objectShape name' pointer s).outcome = .error e) (inline : Bool) :
    Clashes (scope'.DeclaredIn ⟨name', pointer, inline, s⟩) e := by
  unfold objectShape at h h'
  rw [Traced.outcome_bind_eq_ok_iff] at h
  rw [Traced.outcome_bind_eq_error_iff] at h'
  obtain ⟨merged, hmerged, h⟩ := h
  rcases h' with hfails | ⟨merged', hmerged', h'⟩
  · exact (merging_clashes hd).1 [(pointer, name)] name pointer s _ hmerged [(pointer, name')] name'
      inline _ rfl hfails
  · -- the members of a union are looked for in both scopes or in none
    have halike := (merging_alike hd).1 _ _ _ _ _ hmerged _ _ _ hmerged'
    rw [halike.discriminator] at h
    split at h'
    · cases h'
    · rename_i hsome
      rw [if_neg hsome] at h
      obtain ⟨members, hm, -⟩ := Traced.outcome_bind_eq_ok_iff.1 h
      obtain ⟨members', hm'⟩ := @unionMembers_rename scope scope' name name' hd 0 0 _
        merged'.unionMembers _ _ hm
      rw [Traced.outcome_bind_eq_error_iff, hm'] at h'
      rcases h' with h' | ⟨found, -, h'⟩
      · cases h'
      · cases h'

/-- An outline that is found under other names is missing only where an object clashes. -/
theorem clashes_of_outline (hd : scope'.document = scope.document) {found : Outline}
    (h : (scope.outline name pointer s).outcome = .ok found)
    (h' : (scope'.outline name' pointer s).outcome = .error e) (inline : Bool) :
    ∃ core, scope'.document.ObjectOf ⟨name', pointer, inline, s⟩ core ∧
      Clashes (scope'.DeclaredIn core) e := by
  have htype := (typing_rename hd).1
  induction pointer, s using outline.induct with
  | case1 pointer s hc => simp [outline_eq, hc] at h'
  | case2 pointer s keyword index inner hc ih =>
    rw [outline_eq, hc] at h h'
    obtain ⟨core, ⟨hwraps, hobject⟩, hclashes⟩ := ih h h'
    exact ⟨core, ⟨.head (.inline hc) hwraps, hobject⟩, hclashes⟩
  | case3 pointer s keyword index target hc =>
    simp only [outline_eq, hc, Traced.outcome_bind_eq_ok_iff, Traced.outcome_lift] at h
    obtain ⟨component, hr, -⟩ := h
    rw [← hd] at hr
    have hr' : scope'.document.resolveRef name' target = .ok component :=
      Document.resolveRef_context hr
    simp [outline_eq, hc, hr', Traced.outcome_map_eq_error_iff] at h'
  | case4 pointer s hc => simp [outline_eq, hc, Traced.outcome_map_eq_error_iff] at h'
  | case5 pointer s hc =>
    simp only [outline_eq, hc, Traced.outcome_bind_eq_ok_iff] at h
    simp only [outline_eq, hc, Traced.outcome_bind_eq_error_iff, Traced.outcome_pure] at h'
    obtain ⟨o, ho, -⟩ := h
    rcases h' with hfails | ⟨o', -, h'⟩
    · exact ⟨_, ⟨.refl, hc⟩, clashes_of_objectShape hd ho hfails inline⟩
    · cases h'
  | case6 pointer s hc => simp [outline_eq, hc] at h'
  | case7 pointer s items hc =>
    simp only [outline_eq, hc, Traced.outcome_bind_eq_ok_iff] at h
    obtain ⟨t, ht, -⟩ := h
    obtain ⟨t', ht'⟩ := htype _ _ _ _ _ _ ht name' (name' ++ "Item")
    simp [outline_eq, hc, ht', Traced.outcome_map_eq_error_iff] at h'
  | case8 pointer s hc => simp [outline_eq, hc] at h'
  | case9 pointer s values hc =>
    simp only [outline_eq, hc, Traced.outcome_bind_eq_ok_iff] at h
    obtain ⟨t, ht, -⟩ := h
    obtain ⟨t', ht'⟩ := htype _ _ _ _ _ _ ht name' (name' ++ "Value")
    simp [outline_eq, hc, ht', Traced.outcome_map_eq_error_iff] at h'
  | case10 pointer s type hc => simp [outline_eq, hc] at h'

/-- The parts of an object schema declare each key with one type. -/
def Coherent (scope : Scope) (core : Site) : Prop :=
  ∀ p q, scope.DeclaredIn core p → scope.DeclaredIn core q → p.key = q.key → p.type = q.type

theorem Coherent.not_clashes {core : Site} (h : scope.Coherent core) :
    ¬Clashes (scope.DeclaredIn core) e := by
  rintro ⟨name, p, q, hp, hq, hk, hne, -⟩
  exact hne (h p q hp hq hk)

variable {order : List String}

/-- A shape that is found under other names is found where all outlines are. -/
theorem ShapeWithin.rename (hd : scope'.document = scope.document)
    (houtline : ∀ site, scope'.Visits order site →
      ∃ found, (scope'.outlineAt site).outcome = .ok found)
    {n : Nat} {site : Site} {shape : Shape} (h : scope.ShapeWithin n site shape) {site' : Site}
    (hv : scope'.Visits order site') (hp : site.pointer = site'.pointer)
    (hs : site.schema = site'.schema) : ∃ shape', scope'.ShapeWithin n site' shape' := by
  induction h generalizing site' with
  | own outline =>
    obtain ⟨found, hfound⟩ := houtline site' hv
    rw [outlineAt, hp, hs] at outline
    cases outline_alike hd outline hfound with
    | shape spots => exact ⟨_, .own hfound⟩
  | same outline definition within ih =>
    obtain ⟨found, hfound⟩ := houtline site' hv
    rw [outlineAt, hp, hs] at outline
    cases outline_alike hd outline hfound
    rw [← hd] at definition
    obtain ⟨shape', hshape⟩ := ih (.same hv hfound definition) rfl rfl
    exact ⟨shape', .same hfound definition hshape⟩

/-- What is beside `null` in a visited site is outlined like a visited site. -/
theorem Visits.wraps {site core : Site} (hv : scope.Visits order site)
    (h : ReflTransGen scope.document.Wraps site core) :
    ∃ v, scope.Visits order v ∧ (scope.outlineAt v).outcome = (scope.outlineAt core).outcome := by
  induction h with
  | refl => exact ⟨site, hv, rfl⟩
  | @tail middle core _ hstep ih =>
    obtain ⟨v, hv, ho⟩ := ih
    cases hstep with
    | inline category =>
      rw [outlineAt, outlineAt, outline_eq _ middle.name, category] at ho
      exact ⟨v, hv, ho⟩
    | component category leads definition =>
      refine ⟨_, .same hv ?_ definition, rfl⟩
      rw [ho, outlineAt, outline_eq, category]
      exact Traced.outcome_bind_eq_ok_iff.2 ⟨_, leads, rfl⟩

/-- Where all visited sites are outlined, their objects have coherent parts. -/
theorem Visits.coherent {site core : Site} (hv : scope.Visits order site)
    (houtline : ∀ site, scope.Visits order site →
      ∃ found, (scope.outlineAt site).outcome = .ok found)
    (h : scope.document.ObjectOf site core) : scope.Coherent core := by
  obtain ⟨v, hv, ho⟩ := hv.wraps h.1
  obtain ⟨found, hfound⟩ := houtline v hv
  rw [ho, outlineAt, outline_eq, h.2, Traced.outcome_bind_eq_ok_iff] at hfound
  obtain ⟨o, hobject, -⟩ := hfound
  obtain ⟨merged, members, hmerged, -⟩ := objectShape_eq_ok hobject
  have hcollects := (merging_collects scope).1 _ _ _ _ _ hmerged core.inline
  exact fun p q hp hq hk => hcollects.type_eq hp hq hk

end Scope

namespace Resolver

variable {scope scope' : Scope} {d : Document} {order : List String}
  {renames : List (Pointer × String)} {r : Resolver}

/-- What can be resolved under some names can be under others, if all outlines are found. -/
theorem Resolvable.rename (hd : scope'.document = scope.document) (hr : Resolvable scope order)
    (houtline : ∀ site, scope'.Visits order site →
      ∃ found, (scope'.outlineAt site).outcome = .ok found) : Resolvable scope' order where
  follows name hm := by
    rw [hd]
    exact hr.follows name hm
  shapes site' hv := by
    obtain ⟨site, hsite, hp, hs⟩ := hv.twin hd fun site hv => hr.outline hv
    obtain ⟨shape, n, hshape⟩ := hr.shapes site hsite
    obtain ⟨shape', hshape'⟩ := hshape.rename hd houtline hv hp hs
    exact ⟨shape', n, hshape'⟩

/-- An outline that cannot be found after a first pass that succeeds has clashing parts. -/
theorem Resolvable.clashes (hd : scope'.document = scope.document) (hr : Resolvable scope order)
    {site : Site} (hv : scope'.Visits order site) {e : ModelError}
    (h : (scope'.outlineAt site).outcome = .error e) :
    ∃ core, scope'.document.ObjectOf site core ∧ Clashes (scope'.DeclaredIn core) e := by
  obtain ⟨first, hfirst, hp, hs⟩ := hv.twin hd fun site hv => hr.outline hv
  obtain ⟨found, hfound⟩ := hr.outline hfirst
  rw [Scope.outlineAt, hp, hs] at hfound
  exact Scope.clashes_of_outline hd hfound h site.inline

theorem Resolvable.of_coherent (hd : scope'.document = scope.document)
    (hr : Resolvable scope order) (hc : ∀ site core, scope'.Visits order site →
      scope'.document.ObjectOf site core → scope'.Coherent core) : Resolvable scope' order := by
  refine hr.rename hd ?_
  intro site hv
  cases h : (scope'.outlineAt site).outcome with
  | ok found => exact ⟨found, rfl⟩
  | error e =>
    obtain ⟨core, hcore, hclashes⟩ := hr.clashes hd hv h
    exact absurd hclashes (hc site core hv hcore).not_clashes

/-- All passes before the last one succeed. -/
theorem Rounds.resolves (h : Rounds d order renames) (hlast : LastPass d order r) :
    ∃ r', pass ⟨d, renames⟩ order = .ok r' := by
  obtain ⟨last, hrounds, hpass, hn⟩ := hlast
  rcases Relation.ReflTransGen.total_of_right_unique (next_rightUnique d order) h.reaches
    hrounds.reaches with hpath | hpath
  · rcases hpath.cases_head with rfl | ⟨next, ⟨r', hr', -⟩, -⟩
    · exact ⟨r, hpass⟩
    · exact ⟨r', hr'⟩
  · rcases hpath.cases_head with rfl | ⟨next, ⟨r', hr', hcollides, -⟩, -⟩
    · exact ⟨r, hpass⟩
    · rw [hpass, Except.ok.injEq] at hr'
      rw [hr'] at hn
      exact absurd hn hcollides

/-- A pass that fails after a first one that succeeds reports conflicting types. -/
theorem Resolvable.conflictingType (hd : scope'.document = scope.document)
    (hr : Resolvable scope order) {reason : Stop} (h : pass scope' order = .error reason) :
    ∃ schema key existing incoming,
      reason = .failed (.conflictingType schema key existing incoming) := by
  have hclashes : ∃ declared e, Clashes declared e ∧ reason = .failed e := by
    rcases pass_error hd hr h with
      ⟨site, shape, e, ⟨n, hshape⟩, he, hreason⟩ | ⟨i, e, hv, he, hreason⟩
    · obtain ⟨found, hfound⟩ := hshape.outline
      obtain ⟨core, -, hclashes⟩ := Scope.clashes_of_outline hd hfound he site.inline
      exact ⟨_, e, hclashes, hreason⟩
    · obtain ⟨core, -, hclashes⟩ := hr.clashes hd hv he
      exact ⟨_, e, hclashes, hreason⟩
  obtain ⟨declared, e, ⟨name, p, q, -, -, -, -, rfl⟩, hreason⟩ := hclashes
  exact ⟨_, _, _, _, hreason⟩

end Resolver

/-- After a first pass that succeeds, resolution succeeds exactly if in each pass that is made the
parts of each object declare a key with one type; nothing else is ever reported. -/
theorem Document.resolve_succeeds_iff {d : Document} {order : List String} {r : Resolver}
    (h : Resolver.pass ⟨d, []⟩ order = .ok r) :
    ((∃ g, d.resolve order = .ok g) ↔
      ∀ renames, Resolver.Rounds d order renames → ∀ site core,
        Scope.Visits ⟨d, renames⟩ order site → d.ObjectOf site core →
          Scope.Coherent ⟨d, renames⟩ core) ∧
    ∀ reason, d.resolve order = .error reason → ∃ schema key existing incoming,
      reason = .failed (.conflictingType schema key existing incoming) := by
  have hfirst := Resolver.pass_succeeds_iff.1 ⟨r, h⟩
  have hends := Resolver.ends_of_pass h
  refine ⟨⟨?_, ?_⟩, ?_⟩
  · rintro ⟨g, hg⟩ renames hrounds site core hv hcore
    obtain ⟨last, hlast, -⟩ := lastPass_of_resolve hg
    have hresolvable := Resolver.pass_succeeds_iff.1 (hrounds.resolves hlast)
    exact hv.coherent (fun site hv => hresolvable.outline hv) hcore
  · intro hcoherent
    cases hresult : d.resolve order with
    | ok g => exact ⟨g, rfl⟩
    | error reason =>
      rw [hresult] at hends
      cases hends with
      | @failed renames e before fails =>
        have hd : (Scope.mk d renames).document = (Scope.mk d []).document := rfl
        have hresolvable := hfirst.of_coherent hd (hcoherent renames before)
        obtain ⟨r', hr'⟩ := Resolver.pass_succeeds_iff.2 hresolvable
        rw [hr'] at fails
        cases fails
  · intro reason hreason
    rw [hreason] at hends
    cases hends with
    | @failed renames e before fails =>
      have hd : (Scope.mk d renames).document = (Scope.mk d []).document := rfl
      exact hfirst.conflictingType hd fails

end

/-- A property that is declared twice, in a schema whose name another inline schema takes. -/
def redeclaredInline : Document :=
  let text : Node := .schema { Schema.empty with type := some (.single .string) }
  let object (key : String) (node : Node) : Node := .schema { Schema.empty with
    type := some (.single .object)
    properties := [(key, node)] }
  ⟨"3.0.3", default,
    [("A", object "bC" (object "x" text)),
      ("AB", .schema { Schema.empty with
        allOf := [.schema { Schema.empty with properties := [("c", object "y" text)] }]
        properties := [("c", object "y" text)] })], by decide⟩

theorem redeclaredInline_first_pass :
    ∃ r, Resolver.pass ⟨redeclaredInline, []⟩ ["A", "AB"] = .ok r := by
  have hok : (Resolver.pass ⟨redeclaredInline, []⟩ ["A", "AB"]).toOption.isSome := by cbv
  exact exists_eq_ok_of_isSome hok

theorem resolve_succeeds_iff_redeclared_inline :
    ∃ r, Resolver.pass ⟨redeclaredInline, []⟩ ["A", "AB"] = .ok r ∧
      ((∃ g, redeclaredInline.resolve ["A", "AB"] = .ok g) ↔
        ∀ renames, Resolver.Rounds redeclaredInline ["A", "AB"] renames → ∀ site core,
          Scope.Visits ⟨redeclaredInline, renames⟩ ["A", "AB"] site →
            redeclaredInline.ObjectOf site core →
              Scope.Coherent ⟨redeclaredInline, renames⟩ core) ∧
      ∀ reason, redeclaredInline.resolve ["A", "AB"] = .error reason →
        ∃ schema key existing incoming,
          reason = .failed (.conflictingType schema key existing incoming) := by
  obtain ⟨r, hr⟩ := redeclaredInline_first_pass
  exact ⟨r, hr, Document.resolve_succeeds_iff hr⟩

/-- Only the declaration that is kept gets a new name, and then it conflicts with the other. -/
theorem redeclaredInline_breaks :
    (∃ r, Resolver.pass ⟨redeclaredInline, []⟩ ["A", "AB"] = .ok r) ∧
      redeclaredInline.resolve ["A", "AB"] =
        .error (.failed (.conflictingType "AB" "c" "ABC" "ABC2")) :=
  ⟨redeclaredInline_first_pass, by cbv⟩

end SchemaModel
