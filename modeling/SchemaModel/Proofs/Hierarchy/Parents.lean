import SchemaModel.Proofs.Hierarchy.Candidates

/-!
What an analysis that succeeds has found: the parent of a schema is its one direct candidate, the
children of a schema are those of which it is the parent, and each discriminated object has its
discrimination.
-/

namespace SchemaModel

theorem selectParents_eq_ok {c : Candidates} {names : List String}
    {parents parents' : NameMap String}
    (h : selectParents c names parents = .ok parents') :
    (∀ schema ∈ names, c.direct schema = [] ∨ ∃ super, c.direct schema = [super]) ∧
      ∀ schema super, parents'.find? schema = some super ↔
        (schema ∈ names ∧ c.direct schema = [super]) ∨
          ((schema ∈ names → c.direct schema = []) ∧ parents.find? schema = some super) := by
  induction names generalizing parents with
  | nil =>
    cases h
    simp
  | cons name rest ih =>
    rw [selectParents] at h
    split at h
    · rename_i hd
      obtain ⟨hone, hfind⟩ := ih h
      refine ⟨?_, ?_⟩
      · intro schema hm
        rcases List.mem_cons.1 hm with rfl | hm
        · exact .inl hd
        · exact hone schema hm
      · intro schema super
        rw [hfind, List.mem_cons]
        by_cases hs : schema = name
        · subst hs
          simp [hd]
        · simp [hs]
    · rename_i parent hd
      obtain ⟨hone, hfind⟩ := ih h
      refine ⟨?_, ?_⟩
      · intro schema hm
        rcases List.mem_cons.1 hm with rfl | hm
        · exact .inr ⟨parent, hd⟩
        · exact hone schema hm
      · intro schema super
        rw [hfind, List.mem_cons, NameMap.find?_insert]
        by_cases hs : schema = name
        · subst hs
          simp [hd]
          grind
        · simp [hs]
    · cases h

namespace Graph

theorem mem_childrenByParent {parents : NameMap String} {schema super : String} :
    schema ∈ (((childrenByParent parents).find? super).getD .empty).keys ↔
      parents.find? schema = some super := by
  change schema ∈ Candidates.of (parents.toList.foldl (fun c e => Candidates.add c e.2 e.1) .empty)
    super ↔ _
  have hstep : ∀ (c : Candidates) (e : String × String),
      schema ∈ (c.add e.2 e.1).of super ↔ (super = e.2 ∧ schema = e.1) ∨ schema ∈ c.of super :=
    fun c e => Candidates.mem_of_add
  rw [Candidates.mem_of_foldl hstep]
  constructor
  · rintro (⟨e, he, rfl, rfl⟩ | h)
    · exact NameMap.mem_toList_iff.1 he
    · exact absurd h Candidates.mem_of_empty
  · intro h
    exact .inl ⟨(schema, super), NameMap.mem_toList_iff.2 h, rfl, rfl⟩

theorem discriminateAll_eq_ok {g : Graph} {children : NameMap NameSet}
    {found found' : NameMap Discrimination} {supers : List (String × ObjectShape × Discriminator)}
    (h : g.discriminateAll children found supers = .ok found') {name : String}
    {d : Discrimination} (hd : found'.find? name = some d) :
    (∃ o discriminator, (name, o, discriminator) ∈ supers ∧
      g.discriminate name o discriminator ((children.find? name).getD .empty) = .ok d) ∨
    found.find? name = some d := by
  induction supers generalizing found with
  | nil =>
    cases h
    exact .inr hd
  | cons first rest ih =>
    obtain ⟨other, o, discriminator⟩ := first
    rw [discriminateAll] at h
    obtain ⟨d', hd', h⟩ := bind_eq_ok_iff.1 h
    rcases ih h with ⟨o', discriminator', hm, he⟩ | he
    · exact .inl ⟨o', discriminator', List.mem_cons_of_mem _ hm, he⟩
    · rw [NameMap.find?_insert] at he
      split at he
      · rename_i hn
        cases he
        exact .inl ⟨o, discriminator, hn ▸ List.mem_cons_self, hn ▸ hd'⟩
      · exact .inr he

/-- Each of the objects that are gone through gets its discrimination. -/
theorem isSome_of_discriminateAll {g : Graph} {children : NameMap NameSet}
    {found found' : NameMap Discrimination} {supers : List (String × ObjectShape × Discriminator)}
    (h : g.discriminateAll children found supers = .ok found') {name : String}
    (hn : (∃ o discriminator, (name, o, discriminator) ∈ supers) ∨ (found.find? name).isSome) :
    (found'.find? name).isSome := by
  induction supers generalizing found with
  | nil =>
    cases h
    rcases hn with ⟨o, discriminator, hm⟩ | hf
    · cases hm
    · exact hf
  | cons first rest ih =>
    obtain ⟨other, o, discriminator⟩ := first
    rw [discriminateAll] at h
    obtain ⟨d, -, h⟩ := bind_eq_ok_iff.1 h
    apply ih h
    rw [NameMap.find?_insert]
    by_cases he : name = other
    · exact .inr (by simp [he])
    · rw [if_neg he]
      rcases hn with ⟨o', discriminator', hm⟩ | hf
      · rcases List.mem_cons.1 hm with hm | hm
        · cases hm
          exact absurd rfl he
        · exact .inl ⟨o', discriminator', hm⟩
      · exact .inr hf

/-- The property of an object in the graph. -/
def property? (g : Graph) (schema key : String) : Option ResolvedProperty :=
  (g.object? schema).bind fun o => o.property? key

/-- Where the declaration of a discriminator comes from: from the supertype, or else from one of
its children, all of which have one. -/
inductive Declares (g : Graph) (o : ObjectShape) (children : NameSet) (property : String) :
    ResolvedProperty → Bool → Prop where
  | onSuper {declaration : ResolvedProperty} (found : o.property? property = some declaration) :
      Declares g o children property declaration true
  | onChildren {declaration : ResolvedProperty} {child : String}
      (none : o.property? property = none) (mem : child ∈ children.keys)
      (found : g.property? child property = some declaration)
      (all : ∀ other ∈ children.keys, (g.property? other property).isSome) :
      Declares g o children property declaration false

theorem mem_ordered {children : NameSet} {members : List String} {child : String} :
    child ∈ (members.filter fun m => children.contains m) ++
      (children.keys.filter fun child => !members.contains child) ↔ child ∈ children.keys := by
  rw [List.mem_append, List.mem_filter, List.mem_filter, NameSet.contains_iff]
  by_cases hm : child ∈ members <;> simp [hm]

/-- What a discrimination consists of: its members and the keys of the children follow from the
declaration and the mapping. -/
theorem discriminate_eq_ok {g : Graph} {name : String} {o : ObjectShape}
    {discriminator : Discriminator} {children : NameSet} {d : Discrimination}
    (h : g.discriminate name o discriminator children = .ok d) :
    ∃ mapping, d = ⟨⟨discriminator.propertyName, (g.enumOf? d.declaration.type).map Prod.fst,
        children.map fun child _ => discriminatorKeys mapping d.members child⟩,
        d.declaration, d.declaredOnSuper, mapping, (g.enumOf? d.declaration.type).map Prod.snd⟩ ∧
      (discriminator.mapping.mapM fun e =>
        (g.mappingTarget name e.2).map fun target => (e.1, target)) = .ok mapping ∧
      g.Declares o children discriminator.propertyName d.declaration d.declaredOnSuper := by
  unfold discriminate at h
  dsimp only at h
  -- the declaration of the supertype comes first, those of its children count without one
  cases hs : o.property? discriminator.propertyName with
  | some declaration =>
    simp only [hs] at h
    obtain ⟨_, he, h⟩ := bind_eq_ok_iff.1 h
    cases he
    simp only [Bool.not_true, Bool.false_eq_true, if_false] at h
    obtain ⟨mapping, hm, h⟩ := bind_eq_ok_iff.1 h
    cases h
    exact ⟨mapping, rfl, hm, .onSuper hs⟩
  | none =>
    simp only [hs] at h
    split at h
    · rename_i declaration hf
      obtain ⟨_, he, h⟩ := bind_eq_ok_iff.1 h
      cases he
      simp only [Bool.not_false, if_true] at h
      split at h
      · obtain ⟨_, he, -⟩ := bind_eq_ok_iff.1 h
        cases he
      · rename_i hall
        obtain ⟨mapping, hm, h⟩ := bind_eq_ok_iff.1 h
        cases h
        obtain ⟨child, hmem, hchild⟩ := List.exists_of_findSome?_eq_some hf
        refine ⟨mapping, rfl, hm, .onChildren hs (mem_ordered.1 hmem) hchild ?_⟩
        intro other ho
        have hn := List.find?_eq_none.1 hall other (mem_ordered.2 ho)
        cases hp : g.property? other discriminator.propertyName with
        | none => exact absurd (by rw [property?] at hp; rw [hp]; rfl) hn
        | some p => rfl
    · obtain ⟨_, he, -⟩ := bind_eq_ok_iff.1 h
      cases he

theorem hierarchy_eq_ok {g : Graph} {h : Hierarchy} (hh : g.hierarchy = .ok h) :
    ∃ c, g.candidates = .ok c ∧ selectParents c c.keys .empty = .ok h.parents ∧
      findCycle h.parents = none ∧ h.children = childrenByParent h.parents ∧
      g.discriminateAll h.children .empty g.supers = .ok h.discriminations := by
  unfold hierarchy at hh
  obtain ⟨c, hc, hh⟩ := bind_eq_ok_iff.1 hh
  obtain ⟨parents, hp, hh⟩ := bind_eq_ok_iff.1 hh
  split at hh
  · cases hh
  · rename_i hcycle
    obtain ⟨discriminations, hd, hh⟩ := bind_eq_ok_iff.1 hh
    cases hh
    exact ⟨c, hc, hp, hcycle, rfl, hd⟩

variable {g : Graph} {h : Hierarchy}

theorem mem_of_direct {c : Candidates} {schema super : String} (hm : super ∈ c.direct schema) :
    super ∈ c.of schema := (List.mem_filter.1 hm).1

/-- The parent of a schema is its one direct candidate. -/
theorem parent?_eq_some_iff {c : Candidates} (hp : selectParents c c.keys .empty = .ok h.parents)
    {schema super : String} : h.parent? schema = some super ↔ c.direct schema = [super] := by
  rw [Hierarchy.parent?, (selectParents_eq_ok hp).2]
  constructor
  · rintro (⟨-, hd⟩ | ⟨-, he⟩)
    · exact hd
    · cases he
  · intro hd
    have hm : super ∈ c.direct schema := hd ▸ List.mem_cons_self
    exact .inl ⟨Candidates.mem_keys_of_mem (mem_of_direct hm), hd⟩

theorem candidate_of_selected {c : Candidates} (hc : g.candidates = .ok c)
    (hs : selectParents c c.keys .empty = .ok h.parents) {schema super : String}
    (hp : h.parent? schema = some super) : g.Candidate schema super := by
  have hd := (parent?_eq_some_iff hs).1 hp
  have hm : super ∈ c.direct schema := hd ▸ List.mem_cons_self
  exact (mem_candidates hc).1 (mem_of_direct hm)

theorem candidate_of_parent? (hh : g.hierarchy = .ok h) {schema super : String}
    (hp : h.parent? schema = some super) : g.Candidate schema super := by
  obtain ⟨c, hc, hs, -⟩ := hierarchy_eq_ok hh
  exact candidate_of_selected hc hs hp

theorem mem_childrenOf (hh : g.hierarchy = .ok h) {schema super : String} :
    schema ∈ (h.childrenOf super).keys ↔ h.parent? schema = some super := by
  obtain ⟨c, -, -, -, hchildren, -⟩ := hierarchy_eq_ok hh
  rw [Hierarchy.childrenOf, hchildren]
  exact mem_childrenByParent

theorem discriminate_of_discrimination? (hh : g.hierarchy = .ok h) {name : String}
    {d : Discrimination} (hd : h.discrimination? name = some d) :
    ∃ o discriminator, (name, o, discriminator) ∈ g.supers ∧
      g.discriminate name o discriminator (h.childrenOf name) = .ok d := by
  obtain ⟨c, -, -, -, -, hall⟩ := hierarchy_eq_ok hh
  rcases discriminateAll_eq_ok hall hd with h | h
  · exact h
  · cases h

/-- The enum of a discriminator, and its members, are those of its declaration. -/
theorem enum_of_discrimination? (hh : g.hierarchy = .ok h) {name : String} {d : Discrimination}
    (hd : h.discrimination? name = some d) :
    d.descriptor.enumType = (g.enumOf? d.declaration.type).map Prod.fst ∧
      d.members = (g.enumOf? d.declaration.type).map Prod.snd := by
  obtain ⟨o, discriminator, -, hdisc⟩ := discriminate_of_discrimination? hh hd
  obtain ⟨mapping, heq, -⟩ := discriminate_eq_ok hdisc
  constructor
  · conv_lhs => rw [heq]
  · conv_lhs => rw [heq]

theorem discrimination?_of_mem_supers (hh : g.hierarchy = .ok h) {name : String} {o : ObjectShape}
    {discriminator : Discriminator} (hm : (name, o, discriminator) ∈ g.supers) :
    ∃ d, h.discrimination? name = some d := by
  obtain ⟨c, -, -, -, -, hall⟩ := hierarchy_eq_ok hh
  exact Option.isSome_iff_exists.1 (isSome_of_discriminateAll hall (.inl ⟨o, discriminator, hm⟩))

theorem Candidate.discriminated {schema super : String} (hs : g.Candidate schema super) :
    ∃ o discriminator, (super, o, discriminator) ∈ g.supers := by
  cases hs with
  | branch discriminated => exact ⟨_, _, discriminated⟩
  | member discriminated => exact ⟨_, _, discriminated⟩
  | mapped discriminated => exact ⟨_, _, discriminated⟩

/-- Every supertype has a discriminator. -/
theorem discrimination?_of_parent? (hh : g.hierarchy = .ok h) {schema super : String}
    (hp : h.parent? schema = some super) : ∃ d, h.discrimination? super = some d := by
  obtain ⟨o, discriminator, hm⟩ := (candidate_of_parent? hh hp).discriminated
  exact discrimination?_of_mem_supers hh hm

end Graph

end SchemaModel
