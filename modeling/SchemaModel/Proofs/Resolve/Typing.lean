import SchemaModel.Proofs.Resolve.Pass

/-!
The names in a type. A type is found with the components on the way in mind, but only to notice a
cycle: with fewer of them it is the same (`typing_of_subset`), and with more of them unless it
comes to one of these (`typing_with`). So a name in a type is that of a visited enum or object,
also where the inline schemas are not listed (`typing_hosted`).
-/

namespace SchemaModel

/-- Enums and objects, the shapes that types name. -/
def Shape.isNamed : Shape → Bool
  | .enum _ => true
  | .object _ => true
  | _ => false

namespace Scope

variable {scope : Scope} {order : List String}

/-- Typing with `path` on the way goes through a component. -/
def TypesBelow (scope : Scope) (path : List String) (name : String) : Prop :=
  ∃ path' type, path ⊆ path' ∧ (scope.componentType path' name).outcome = .ok type

theorem TypesBelow.of_append {path more : List String} {name : String}
    (h : scope.TypesBelow (path ++ more) name) : scope.TypesBelow path name := by
  obtain ⟨path', type, hsub, ht⟩ := h
  exact ⟨path', type, fun x hx => hsub (List.mem_append_left _ hx), ht⟩

/-- With more components on the way a type is the same, unless the walk comes to one of them. -/
theorem typing_with (scope : Scope) (more : List String) :
    (∀ path context base node pointer v,
      (scope.typeNode path context base node pointer).outcome = .ok v →
        ∀ path', path' ⊆ more ++ path →
          (scope.typeNode path' context base node pointer).outcome = .ok v ∨
            ∃ met ∈ more, scope.TypesBelow path met) ∧
    (∀ path name v, (scope.componentType path name).outcome = .ok v →
      ∀ path', path' ⊆ more ++ path → (scope.componentType path' name).outcome = .ok v ∨
        ∃ met ∈ more, scope.TypesBelow path met) ∧
    ∀ path name s pointer v, (scope.namedType path name s pointer).outcome = .ok v →
      ∀ path', path' ⊆ more ++ path → (scope.namedType path' name s pointer).outcome = .ok v ∨
        ∃ met ∈ more, scope.TypesBelow path met := by
  apply typeNode.mutual_induct scope
  case case1 =>
    intro path context base pointer target ih v h path' hsub
    simp only [typeNode_ref, Traced.outcome_bind_eq_ok_iff, Traced.outcome_lift] at h ⊢
    obtain ⟨name, hr, t, ht, h⟩ := h
    exact (ih name t ht path' hsub).imp_left fun ht => ⟨name, hr, t, ht, h⟩
  case case2 =>
    intro path context base pointer s target hs ih v h path' hsub
    simp only [typeNode_schema, hs, Traced.outcome_bind_eq_ok_iff, Traced.outcome_lift] at h ⊢
    obtain ⟨name, hr, t, ht, h⟩ := h
    exact (ih name t ht path' hsub).imp_left fun ht => ⟨name, hr, t, ht, h⟩
  case case5 =>
    intro path context base pointer s hs union hc ih v h path' hsub
    simp only [typeNode_schema, hs, hc] at h ⊢
    exact ih v h path' hsub
  case case8 | case10 =>
    intro path context base pointer s hs inner hc ih v h path' hsub
    simp only [typeNode_schema, hs, hc, Traced.outcome_bind_eq_ok_iff] at h ⊢
    obtain ⟨t, ht, h⟩ := h
    exact (ih t ht path' hsub).imp_left fun ht => ⟨t, ht, h⟩
  -- the other nodes have their type without a look at the way
  case case3 | case4 | case6 | case7 | case9 =>
    intro path context base pointer s hs hc v h path' hsub
    simp only [typeNode_schema, hs, hc] at h ⊢
    exact .inl h
  case case11 =>
    intro path context base pointer s hs type hc v h path' hsub
    simp only [typeNode_schema, hs, hc] at h ⊢
    exact .inl h
  case case12 =>
    intro path name hm v h path' hsub
    rw [componentType_eq, if_pos hm] at h
    cases h
  case case13 =>
    intro path name hm hn v h path' hsub
    rw [componentType_eq, if_neg hm, hn] at h
    cases h
  case case14 =>
    intro path name hm s hs ih v h path' hsub
    by_cases hmet : name ∈ more
    · exact .inr ⟨name, hmet, path, v, List.Subset.refl _, h⟩
    · rw [componentType_eq, if_neg hm, hs] at h
      have hnew : name ∉ path' := fun h' => (List.mem_append.1 (hsub h')).elim hmet hm
      have hlonger : path' ++ [name] ⊆ more ++ (path ++ [name]) := by
        rw [← List.append_assoc]
        exact List.append_subset.2 ⟨fun x hx => List.mem_append_left _ (hsub hx),
          List.subset_append_right _ _⟩
      rw [componentType_eq, if_neg hnew, hs]
      refine (ih v h _ hlonger).imp_right ?_
      rintro ⟨met, hmore, hbelow⟩
      exact ⟨met, hmore, hbelow.of_append⟩
  case case18 =>
    intro path name s pointer keyword index inner hc ih v h path' hsub
    rw [namedType_eq, hc] at h ⊢
    exact ih v h path' hsub
  case case19 =>
    intro path name s pointer keyword index target hc ih v h path' hsub
    simp only [namedType_eq, hc, Traced.outcome_bind_eq_ok_iff, Traced.outcome_lift] at h ⊢
    obtain ⟨other, hr, h⟩ := h
    exact (ih other v h path' hsub).imp_left fun h => ⟨other, hr, h⟩
  case case21 | case23 =>
    intro path name s pointer inner hc ih v h path' hsub
    simp only [namedType_eq, hc, Traced.outcome_bind_eq_ok_iff] at h ⊢
    obtain ⟨t, ht, h⟩ := h
    exact (ih t ht path' hsub).imp_left fun ht => ⟨t, ht, h⟩
  case case15 | case16 | case17 | case20 | case22 =>
    intro path name s pointer hc v h path' hsub
    simp only [namedType_eq, hc] at h ⊢
    exact .inl h
  case case24 =>
    intro path name s pointer type hc v h path' hsub
    simp only [namedType_eq, hc] at h ⊢
    exact .inl h

/-- With fewer components on the way a type is the same. -/
theorem typing_of_subset (scope : Scope) :
    (∀ path context base node pointer v,
      (scope.typeNode path context base node pointer).outcome = .ok v → ∀ path', path' ⊆ path →
        (scope.typeNode path' context base node pointer).outcome = .ok v) ∧
    (∀ path name v, (scope.componentType path name).outcome = .ok v → ∀ path', path' ⊆ path →
      (scope.componentType path' name).outcome = .ok v) ∧
    ∀ path name s pointer v, (scope.namedType path name s pointer).outcome = .ok v →
      ∀ path', path' ⊆ path → (scope.namedType path' name s pointer).outcome = .ok v := by
  have hnone : ∀ path, ¬∃ met ∈ [], scope.TypesBelow path met := by simp
  obtain ⟨hnode, hcomponent, hnamed⟩ := typing_with scope []
  refine ⟨?_, ?_, ?_⟩
  · intro path context base node pointer v h path' hsub
    exact (hnode _ _ _ _ _ _ h path' hsub).resolve_right (hnone path)
  · intro path name v h path' hsub
    exact (hcomponent _ _ _ h path' hsub).resolve_right (hnone path)
  · intro path name s pointer v h path' hsub
    exact (hnamed _ _ _ _ _ h path' hsub).resolve_right (hnone path)

variable [Libraries]

/-- A name of an enum or object that is met. -/
def Hosted (scope : Scope) (order : List String) (name : String) : Prop :=
  ∃ site shape, scope.Visits order site ∧ scope.HasShape site shape ∧ site.name = name ∧
    shape.isNamed

theorem HasShape.outline {site : Site} {shape : Shape} (h : scope.HasShape site shape) :
    ∃ o, (scope.outlineAt site).outcome = .ok o := by
  obtain ⟨n, h⟩ := h
  cases h with
  | own outline => exact ⟨_, outline⟩
  | same outline => exact ⟨_, outline⟩

theorem outline_isNamed {name : String} {pointer : Pointer} {s : Schema} {o : Outline}
    (hc : s.category.isNamed) (h : (scope.outline name pointer s).outcome = .ok o) :
    ∃ shape inlines, o = .shape shape inlines ∧ shape.isNamed := by
  cases hs : s.category with
  | enum =>
    simp only [outline_eq, hs] at h
    cases h
    exact ⟨_, _, rfl, rfl⟩
  | object =>
    simp only [outline_eq, hs, Traced.outcome_bind_eq_ok_iff] at h
    obtain ⟨object, -, h⟩ := h
    cases h
    exact ⟨_, _, rfl, rfl⟩
  | nullableOf union => simp [hs, Category.isNamed] at hc
  | union => simp [hs, Category.isNamed] at hc
  | array items => simp [hs, Category.isNamed] at hc
  | map values => simp [hs, Category.isNamed] at hc
  | primitive type => simp [hs, Category.isNamed] at hc

/-- A site whose outline is that of an enum or object makes its name one. -/
theorem Visits.hosted {site : Site} (hv : scope.Visits order site)
    (hr : Resolver.Resolvable scope order) {pointer : Pointer} {s : Schema}
    (ho : (scope.outlineAt site).outcome = (scope.outline site.name pointer s).outcome)
    (hc : s.category.isNamed) : scope.Hosted order site.name := by
  obtain ⟨shape, hs⟩ := hr.shapes site hv
  obtain ⟨o, h⟩ := hs.outline
  obtain ⟨shape', inlines, rfl, hn⟩ := outline_isNamed hc (ho.symm.trans h)
  exact ⟨site, shape', hv, ⟨1, .own h⟩, rfl, hn⟩

theorem Visits.inline_hosted {i : Inline} (hv : scope.Visits order (.ofInline i))
    (hr : Resolver.Resolvable scope order) : scope.Hosted order i.name := by
  have hn := hv.grounded.named rfl
  simp only [Schema.isNamed, Bool.and_eq_true] at hn
  exact hv.hosted hr rfl hn.2

section Hosted

variable (hr : Resolver.Resolvable scope order)
  (hall : ∀ name ∈ scope.document.names, name ∈ order)

include hr hall

/-- The names in a type, along the three functions that call each other. The type of a component
is found beside its outline; `site` is the component, and what its type lists inside it is what
its outline lists. -/
theorem typing_hosted :
    (∀ path context base node pointer, ∀ v : TypeRef × List Inline,
      (scope.typeNode path context base node pointer).outcome = .ok v →
      (∀ i ∈ v.2, scope.Visits order (.ofInline i)) →
      ∀ name, v.1.element.named? = some name → scope.Hosted order name) ∧
    (∀ path component type, (scope.componentType path component).outcome = .ok type →
      scope.document.Canonical component →
      ∀ name, type.element.named? = some name → scope.Hosted order name) ∧
    ∀ path component s pointer type,
      (scope.namedType path component s pointer).outcome = .ok type →
      (∃ site, scope.Visits order site ∧ site.name = component ∧
        (scope.outlineAt site).outcome = (scope.outline component pointer s).outcome) →
      ∀ name, type.element.named? = some name → scope.Hosted order name := by
  have hmono := (typing_of_subset scope).1
  apply typeNode.mutual_induct scope
  case case1 =>
    intro path context base pointer target ih v h hv
    simp only [typeNode_ref, Traced.outcome_bind_eq_ok_iff, Traced.outcome_lift,
      Traced.outcome_pure] at h
    obtain ⟨component, hc, t, ht, h⟩ := h
    cases h
    exact ih component _ ht (Document.canonical_of_resolveRef hc)
  case case2 =>
    intro path context base pointer s target hs ih v h hv
    simp only [typeNode_schema, hs, Traced.outcome_bind_eq_ok_iff, Traced.outcome_lift,
      Traced.outcome_pure] at h
    obtain ⟨component, hc, t, ht, h⟩ := h
    cases h
    exact ih component _ ht (Document.canonical_of_resolveRef hc)
  case case3 | case4 =>
    intro path context base pointer s hs hc v h hv name hn
    simp only [typeNode_schema, hs, hc] at h
    cases h
    cases hn
    exact (hv _ List.mem_cons_self).inline_hosted hr
  case case5 =>
    intro path context base pointer s hs union hc ih v h hv
    simp only [typeNode_schema, hs, hc] at h
    exact ih v h hv
  case case6 =>
    intro path context base pointer s hs hc v h hv name hn
    simp only [typeNode_schema, hs, hc, Traced.outcome_bind_eq_ok_iff] at h
    obtain ⟨-, -, h⟩ := h
    cases h
    cases hn
  case case8 | case10 =>
    intro path context base pointer s hs inner hc ih v h hv
    simp only [typeNode_schema, hs, hc, Traced.outcome_bind_eq_ok_iff, Traced.outcome_pure] at h
    obtain ⟨t, ht, h⟩ := h
    cases h
    exact ih t ht hv
  case case7 | case9 =>
    intro path context base pointer s hs hc v h hv name hn
    simp only [typeNode_schema, hs, hc] at h
    cases h
    cases hn
  case case11 =>
    intro path context base pointer s hs primitive hc v h hv name hn
    simp only [typeNode_schema, hs, hc] at h
    cases h
    cases hn
  case case12 =>
    intro path component hm type h
    rw [componentType_eq, if_pos hm] at h
    cases h
  case case13 =>
    intro path component hm hn type h
    rw [componentType_eq, if_neg hm, hn] at h
    cases h
  -- a component that a document refers to is visited, since all of its names are
  case case14 =>
    intro path component hm s hs ih type h hcan
    rw [componentType_eq, if_neg hm, hs] at h
    have hv : scope.Visits order (.ofComponent component s) :=
      .component (hall _ hcan.mem_names) (hcan.followAlias component) hs
    exact ih type h ⟨_, hv, rfl, rfl⟩
  case case15 | case16 =>
    intro path component s pointer hc type h hsite name hn
    obtain ⟨site, hv, rfl, ho⟩ := hsite
    simp only [namedType_eq, hc] at h
    cases h
    cases hn
    exact hv.hosted hr ho (by rw [hc]; rfl)
  case case18 =>
    intro path component s pointer keyword index inner hc ih type h hsite
    obtain ⟨site, hv, hname, ho⟩ := hsite
    rw [namedType_eq, hc] at h
    rw [outline_eq, hc] at ho
    exact ih type h ⟨site, hv, hname, ho⟩
  case case19 =>
    intro path component s pointer keyword index target hc ih type h hsite
    simp only [namedType_eq, hc, Traced.outcome_bind_eq_ok_iff, Traced.outcome_lift] at h
    obtain ⟨other, ho, h⟩ := h
    exact ih other type h (Document.canonical_of_resolveRef ho)
  -- what the type does not list is listed by the outline, which is found with nothing on the way
  case case21 =>
    intro path component s pointer items hc ih type h hsite
    obtain ⟨site, hv, rfl, ho⟩ := hsite
    simp only [namedType_eq, hc, Traced.outcome_bind_eq_ok_iff, Traced.outcome_pure] at h
    obtain ⟨⟨t, found⟩, ht, h⟩ := h
    cases h
    have hout : (scope.outlineAt site).outcome = .ok (.shape (.array t) found) := by
      simp only [ho, outline_eq, hc, Traced.outcome_bind_eq_ok_iff, Traced.outcome_pure]
      exact ⟨(t, found), hmono _ _ _ _ _ _ ht [] (List.nil_subset _), rfl⟩
    exact ih (t, found) ht fun i hi => .inside hv hout hi
  case case23 =>
    intro path component s pointer values hc ih type h hsite
    obtain ⟨site, hv, rfl, ho⟩ := hsite
    simp only [namedType_eq, hc, Traced.outcome_bind_eq_ok_iff, Traced.outcome_pure] at h
    obtain ⟨⟨t, found⟩, ht, h⟩ := h
    cases h
    have hout : (scope.outlineAt site).outcome = .ok (.shape (.map t) found) := by
      simp only [ho, outline_eq, hc, Traced.outcome_bind_eq_ok_iff, Traced.outcome_pure]
      exact ⟨(t, found), hmono _ _ _ _ _ _ ht [] (List.nil_subset _), rfl⟩
    exact ih (t, found) ht fun i hi => .inside hv hout hi
  case case17 | case20 | case22 =>
    intro path component s pointer hc type h hsite name hn
    simp only [namedType_eq, hc] at h
    cases h
    cases hn
  case case24 =>
    intro path component s pointer primitive hc type h hsite name hn
    simp only [namedType_eq, hc] at h
    cases h
    cases hn

theorem Declares.hosted {p : ResolvedProperty} (hp : scope.Declares p)
    (hv : ∀ i ∈ p.inlines, scope.Visits order (.ofInline i)) :
    ∀ name, p.type.element.named? = some name → scope.Hosted order name := by
  obtain ⟨owner, pointer, s, node, -, -, h⟩ := hp
  obtain ⟨effective, -, ht, -⟩ := resolveProperty_eq_ok h
  exact (typing_hosted hr hall).1 _ _ _ _ _ _ ht hv

theorem Admits.hosted {a : AdditionalType} (ha : scope.Admits a)
    (hv : ∀ i ∈ a.inlines, scope.Visits order (.ofInline i)) :
    ∀ name, a.type.element.named? = some name → scope.Hosted order name := by
  obtain ⟨owner, pointer, s, additional, -, -, h⟩ := ha
  rcases additionalType_eq_some h with rfl | ⟨node, rfl, ht⟩
  · intro name hn
    cases hn
  · exact (typing_hosted hr hall).1 _ _ _ _ _ _ ht hv

/-- All names in the types of a shape are those of enums and objects that are met. -/
theorem ShapeOrigin.hosted {shape : Shape} {inlines : List Inline}
    (h : scope.ShapeOrigin shape inlines) (hv : ∀ i ∈ inlines, scope.Visits order (.ofInline i)) :
    ∀ type ∈ shape.types, ∀ name, type.element.named? = some name → scope.Hosted order name := by
  intro type hm
  cases h with
  | @object o sourced =>
    rcases List.mem_append.1 hm with hm | hm
    · obtain ⟨p, hp, rfl⟩ := List.mem_map.1 hm
      refine (sourced.declares p hp).hosted hr hall ?_
      intro i hi
      exact hv i (List.mem_append_left _ (List.mem_flatMap.2 ⟨p, hp, hi⟩))
    · cases ha : o.additional with
      | none => simp [ha] at hm
      | some a =>
        simp only [ha, Option.map_some, Option.toList_some, List.mem_singleton] at hm
        subst hm
        refine (sourced.admits a ha).hosted hr hall ?_
        intro i hi
        exact hv i (List.mem_append_right _ (by simpa [ha] using hi))
  | elements elements typed placed =>
    have ht := (typing_hosted hr hall).1 _ _ _ _ _ _ typed hv
    rcases elements with rfl | rfl
    · rw [List.mem_singleton.1 hm]
      exact ht
    · rw [List.mem_singleton.1 hm]
      exact ht
  | nameless flat types =>
    intro name hn
    rw [types type hm] at hn
    cases hn

end Hosted

/-- The site at the end of a chain, whose own shape it is. -/
theorem HasShape.own {site : Site} {shape : Shape} (h : scope.HasShape site shape)
    (hv : scope.Visits order site) : ∃ site' inlines, scope.Visits order site' ∧
      (scope.outlineAt site').outcome = .ok (.shape shape inlines) := by
  obtain ⟨n, h⟩ := h
  induction h with
  | @own n site shape inlines outline => exact ⟨site, inlines, hv, outline⟩
  | same outline definition within ih => exact ih (.same hv outline definition)

theorem HasShape.origin {site : Site} {shape : Shape} (h : scope.HasShape site shape)
    (hv : scope.Visits order site) : ∃ inlines, scope.ShapeOrigin shape inlines ∧
      ∀ i ∈ inlines, scope.Visits order (.ofInline i) := by
  obtain ⟨site', inlines, hv', outline⟩ := h.own hv
  exact ⟨inlines, outline_origin hv'.grounded.place outline, fun i hi => .inside hv' outline hi⟩

end Scope

end SchemaModel
