import SchemaModel.Proofs.Resolve.Place

/-!
What a merged object is made of. Each of its properties is the last declaration of its key in a
schema that is merged into it, resolved under the name and at the position of that schema
(`Scope.Declares`), and no key occurs twice; the same holds of the type of its undeclared
properties. So what is inside a merged object stands where the walk over positions finds it.

What holds of merged objects is proved along the merging that gives them (`merging_induction`).
-/

namespace SchemaModel

namespace ObjectShape

theorem mem_put {p q : ResolvedProperty} {l : List ResolvedProperty}
    (hn : (l.map ResolvedProperty.key).Nodup) :
    q ∈ put p l ↔ q = p ∨ (q ∈ l ∧ q.key ≠ p.key) := by
  induction l with
  | nil => simp [put]
  | cons r rest ih =>
    obtain ⟨hr, hrest⟩ := List.nodup_cons.1 hn
    unfold put
    by_cases hk : r.key = p.key
    · rw [if_pos hk, List.mem_cons, List.mem_cons]
      constructor
      · rintro (h | h)
        · exact .inl h
        · refine .inr ⟨.inr h, ?_⟩
          intro he
          exact hr (List.mem_map.2 ⟨q, h, he.trans hk.symm⟩)
      · rintro (h | ⟨h | h, hne⟩)
        · exact .inl h
        · exact absurd (h ▸ hk) hne
        · exact .inr h
    · rw [if_neg hk, List.mem_cons, List.mem_cons, ih hrest]
      constructor
      · rintro (h | h | ⟨h, hne⟩)
        · exact .inr ⟨.inl h, h ▸ hk⟩
        · exact .inl h
        · exact .inr ⟨.inr h, hne⟩
      · rintro (h | ⟨h | h, hne⟩)
        · exact .inr (.inl h)
        · exact .inl h
        · exact .inr (.inr ⟨h, hne⟩)

theorem nodup_put {p : ResolvedProperty} {l : List ResolvedProperty}
    (hn : (l.map ResolvedProperty.key).Nodup) :
    ((put p l).map ResolvedProperty.key).Nodup := by
  induction l with
  | nil => simp [put]
  | cons r rest ih =>
    obtain ⟨hr, hrest⟩ := List.nodup_cons.1 hn
    unfold put
    by_cases hk : r.key = p.key
    · rw [if_pos hk, List.map_cons, List.nodup_cons, ← hk]
      exact ⟨hr, hrest⟩
    · rw [if_neg hk, List.map_cons, List.nodup_cons]
      refine ⟨?_, ih hrest⟩
      intro hm
      obtain ⟨q, hq, he⟩ := List.mem_map.1 hm
      rcases (mem_put hrest).1 hq with rfl | ⟨hq, -⟩
      · exact hk he.symm
      · exact hr (List.mem_map.2 ⟨q, hq, he⟩)

theorem declare_eq_ok {name : String} {o o' : ObjectShape} {p : ResolvedProperty}
    (h : o.declare name p = .ok o') : o' = { o with properties := put p o.properties } := by
  unfold declare at h
  split at h
  · split at h
    · cases h
      rfl
    · cases h
  · cases h
    rfl

/-- Declaring properties one after another puts them one after another. -/
theorem foldlM_declare_eq_ok {name : String} {properties : List ResolvedProperty}
    {o o' : ObjectShape} (h : properties.foldlM (declare name) o = .ok o') :
    o' = { o with properties := properties.foldl (fun l p => put p l) o.properties } := by
  induction properties generalizing o with
  | nil =>
    cases h
    rfl
  | cons p rest ih =>
    rw [List.foldlM_cons, bind_eq_ok_iff] at h
    obtain ⟨o₁, h₁, h⟩ := h
    rw [ih h, declare_eq_ok h₁]
    rfl

theorem merge_eq_ok {name : String} {o branch o' : ObjectShape} {inlineBranch : Bool}
    (h : o.merge name branch inlineBranch = .ok o') :
    o' = { o with
      properties := branch.properties.foldl (fun l p => put p l) o.properties
      required := o.required.union branch.required
      additional := branch.additional.orElse fun _ => o.additional
      discriminator :=
        if inlineBranch then branch.discriminator.orElse fun _ => o.discriminator
        else o.discriminator } := by
  unfold merge at h
  rw [bind_eq_ok_iff] at h
  obtain ⟨o₁, h₁, h⟩ := h
  rw [foldlM_declare_eq_ok h₁] at h
  cases h
  rfl

theorem nodup_foldl_put {properties l : List ResolvedProperty}
    (hn : (l.map ResolvedProperty.key).Nodup) :
    ((properties.foldl (fun l p => put p l) l).map ResolvedProperty.key).Nodup := by
  induction properties generalizing l with
  | nil => exact hn
  | cons p rest ih => exact ih (nodup_put hn)

theorem mem_of_mem_put {p q : ResolvedProperty} {l : List ResolvedProperty} (h : q ∈ put p l) :
    q = p ∨ q ∈ l := by
  induction l with
  | nil => exact .inl (List.mem_singleton.1 h)
  | cons r rest ih =>
    unfold put at h
    split at h
    · rcases List.mem_cons.1 h with h | h
      · exact .inl h
      · exact .inr (List.mem_cons_of_mem _ h)
    · rcases List.mem_cons.1 h with rfl | h
      · exact .inr List.mem_cons_self
      · exact (ih h).imp_right (List.mem_cons_of_mem _)

theorem mem_of_mem_foldl_put {properties l : List ResolvedProperty} {q : ResolvedProperty}
    (h : q ∈ properties.foldl (fun l p => put p l) l) : q ∈ properties ∨ q ∈ l := by
  induction properties generalizing l with
  | nil => exact .inr h
  | cons p rest ih =>
    rcases ih h with h | h
    · exact .inl (List.mem_cons_of_mem _ h)
    · rcases mem_of_mem_put h with rfl | h
      · exact .inl List.mem_cons_self
      · exact .inr h

theorem find?_put (p : ResolvedProperty) (l : List ResolvedProperty) (key : String) :
    (put p l).find? (fun q => q.key == key) =
      if p.key = key then some p else l.find? fun q => q.key == key := by
  induction l with
  | nil => by_cases hk : p.key = key <;> simp [put, hk]
  | cons q rest ih =>
    unfold put
    by_cases hq : q.key = p.key
    · rw [if_pos hq, List.find?_cons, List.find?_cons, hq]
      by_cases hk : p.key = key
      · simp [hk]
      · simp [hk, beq_eq_false_iff_ne.2 hk]
    · rw [if_neg hq, List.find?_cons, List.find?_cons, ih]
      by_cases hk : p.key = key
      · have hne : (q.key == key) = false := beq_eq_false_iff_ne.2 (hk ▸ hq)
        simp only [if_pos hk, hne]
      · rw [if_neg hk, if_neg hk]

/-- What `part` declares, `o` declares with the same type. -/
def Within (part o : ObjectShape) : Prop :=
  ∀ key p, part.property? key = some p → ∃ q, o.property? key = some q ∧ q.type = p.type

theorem Within.refl (o : ObjectShape) : o.Within o := fun _ p hp => ⟨p, hp, rfl⟩

theorem Within.trans {a b o : ObjectShape} (hab : a.Within b) (hbo : b.Within o) : a.Within o := by
  intro key p hp
  obtain ⟨q, hq, hqp⟩ := hab key p hp
  obtain ⟨r, hr, hrq⟩ := hbo key q hq
  exact ⟨r, hr, hrq.trans hqp⟩

/-- A declaration that is accepted has the type of the one that it replaces. -/
theorem declare_within {name : String} {o o' : ObjectShape} {p : ResolvedProperty}
    (h : o.declare name p = .ok o') : o.Within o' ∧ o'.property? p.key = some p := by
  have hfind : ∀ key, o'.property? key = if p.key = key then some p else o.property? key := by
    intro key
    rw [declare_eq_ok h]
    exact find?_put p o.properties key
  refine ⟨?_, by rw [hfind, if_pos rfl]⟩
  intro key q hq
  rw [hfind]
  by_cases hk : p.key = key
  · subst hk
    unfold declare at h
    rw [hq] at h
    dsimp only at h
    split at h
    · rename_i ht
      exact ⟨p, if_pos rfl, ht.symm⟩
    · cases h
  · exact ⟨q, by rw [if_neg hk, hq], rfl⟩

theorem foldlM_declare_within {name : String} {properties : List ResolvedProperty}
    {o o' : ObjectShape} (h : properties.foldlM (declare name) o = .ok o') :
    o.Within o' ∧ ∀ p ∈ properties, ∃ q, o'.property? p.key = some q ∧ q.type = p.type := by
  induction properties generalizing o with
  | nil =>
    cases h
    exact ⟨.refl _, by simp⟩
  | cons p rest ih =>
    rw [List.foldlM_cons, bind_eq_ok_iff] at h
    obtain ⟨o₁, h₁, h⟩ := h
    obtain ⟨hfirst, hp⟩ := declare_within h₁
    obtain ⟨hrest, hall⟩ := ih h
    refine ⟨hfirst.trans hrest, ?_⟩
    intro q hq
    rcases List.mem_cons.1 hq with rfl | hq
    · exact hrest q.key q hp
    · exact hall q hq

/-- A merged object keeps what it had, and what the branch declares. -/
theorem merge_within {name : String} {o branch o' : ObjectShape} {inlineBranch : Bool}
    (h : o.merge name branch inlineBranch = .ok o') : o.Within o' ∧ branch.Within o' := by
  unfold merge at h
  rw [bind_eq_ok_iff] at h
  obtain ⟨o₁, h₁, h⟩ := h
  cases h
  obtain ⟨hold, hbranch⟩ := foldlM_declare_within h₁
  refine ⟨hold, ?_⟩
  intro key p hp
  have hk : p.key = key := by simpa using List.find?_some hp
  exact hk ▸ hbranch p (List.mem_of_find?_eq_some hp)

theorem mem_inlines_iff {o : ObjectShape} {i : Inline} : i ∈ o.inlines ↔
    (∃ p ∈ o.properties, i ∈ p.inlines) ∨ ∃ a, o.additional = some a ∧ i ∈ a.inlines := by
  rw [inlines, List.mem_append, List.mem_flatMap]
  cases o.additional <;> simp

end ObjectShape

namespace Scope

variable {scope : Scope}

variable [Libraries]

theorem resolveProperty_eq_ok {owner key : String} {pointer : Pointer} {node : Node}
    {p : ResolvedProperty} (h : (scope.resolveProperty owner pointer key node).outcome = .ok p) :
    ∃ effective, p.key = key ∧
      (scope.typeNode [] owner (Naming.inlineName owner key) node
        (pointer.push (.property key))).outcome = .ok (p.type, p.inlines) ∧
      scope.document.effective owner node = .ok effective ∧
      (propertyKind owner key node p.type effective).outcome = .ok p.kind ∧
      scope.document.isNullable owner node = .ok p.nullable ∧
      p.default = effective.default ∧ p.description = effective.description := by
  unfold resolveProperty at h
  simp only [Traced.outcome_bind_eq_ok_iff, Traced.outcome_lift, Traced.outcome_pure] at h
  obtain ⟨⟨type, inlines⟩, ht, effective, he, kind, hk, nullable, hn, h⟩ := h
  cases h
  exact ⟨effective, rfl, ht, he, hk, hn, rfl, rfl⟩

omit [Libraries] in
/-- Undeclared properties have any type, or that of a node. -/
theorem additionalType_eq_some {owner : String} {pointer : Pointer} {additional : Additional}
    {a : AdditionalType}
    (h : (scope.additionalType owner pointer additional).outcome = .ok (some a)) :
    a = ⟨.untyped, []⟩ ∨ ∃ node, additional = .values node ∧
      (scope.typeNode [] owner (owner ++ "Value") node (pointer.push .additional)).outcome =
        .ok (a.type, a.inlines) := by
  cases additional with
  | flag allowed =>
    cases allowed <;> cases h
    exact .inl rfl
  | values node =>
    unfold additionalType at h
    simp only [Traced.outcome_bind_eq_ok_iff, Traced.outcome_pure] at h
    obtain ⟨⟨type, inlines⟩, ht, h⟩ := h
    cases h
    exact .inr ⟨node, rfl, ht⟩

/-- A property as the schema at some place declares it. -/
def Declares (scope : Scope) (p : ResolvedProperty) : Prop :=
  ∃ owner pointer s node, scope.placeAt pointer = some (.owner owner s) ∧
    s.property? p.key = some node ∧
    (scope.resolveProperty owner pointer p.key node).outcome = .ok p

/-- The type of undeclared properties as the schema at some place gives it. -/
def Admits (scope : Scope) (a : AdditionalType) : Prop :=
  ∃ owner pointer s additional, scope.placeAt pointer = some (.owner owner s) ∧
    s.additional = some additional ∧
    (scope.additionalType owner pointer additional).outcome = .ok (some a)

theorem Declares.placed {p : ResolvedProperty} (h : scope.Declares p) :
    ∀ i ∈ p.inlines, scope.Placed i := by
  obtain ⟨owner, pointer, s, node, hp, hk, h⟩ := h
  obtain ⟨effective, -, ht, -⟩ := resolveProperty_eq_ok h
  refine typeNode_placed ht ?_ (steps_push_ne_nil _ _)
  rw [placeAt_push, hp, Option.bind_some, childPlace, hk]
  rfl

theorem Admits.placed {a : AdditionalType} (h : scope.Admits a) :
    ∀ i ∈ a.inlines, scope.Placed i := by
  obtain ⟨owner, pointer, s, additional, hp, hs, h⟩ := h
  rcases additionalType_eq_some h with rfl | ⟨node, rfl, ht⟩
  · simp
  · refine typeNode_placed ht ?_ (steps_push_ne_nil _ _)
    rw [placeAt_push, hp, Option.bind_some, childPlace, hs]

/-- The component is merged into the object. -/
def Merges (scope : Scope) (o : ObjectShape) (name : String) : Prop :=
  ∃ path part, (scope.mergeComponent path name).outcome = .ok part ∧ part.Within o

theorem Merges.mono {o o' : ObjectShape} {name : String} (h : scope.Merges o name)
    (ho : o.Within o') : scope.Merges o' name := by
  obtain ⟨path, part, hpart, hwithin⟩ := h
  exact ⟨path, part, hpart, hwithin.trans ho⟩

/-- A merged object without repeated keys whose parts are declared by the document and whose
branches and members are components that define a schema. The branches are merged into it. -/
structure Sourced (scope : Scope) (o : ObjectShape) : Prop where
  nodup : (o.properties.map ResolvedProperty.key).Nodup
  declares : ∀ p ∈ o.properties, scope.Declares p
  admits : ∀ a, o.additional = some a → scope.Admits a
  branches : ∀ name ∈ o.allOfRefs, scope.document.Canonical name
  merges : ∀ name ∈ o.allOfRefs, scope.Merges o name
  members : ∀ name ∈ o.unionMembers, scope.document.Canonical name

theorem sourced_empty (scope : Scope) : scope.Sourced .empty where
  nodup := List.nodup_nil
  declares := by simp [ObjectShape.empty]
  admits := by simp [ObjectShape.empty]
  branches := by simp [ObjectShape.empty]
  merges := by simp [ObjectShape.empty]
  members := by simp [ObjectShape.empty]

theorem Sourced.addBranches {o : ObjectShape} (ho : scope.Sourced o) {names : List String}
    (h : ∀ name ∈ names, scope.document.Canonical name ∧ scope.Merges o name) :
    scope.Sourced { o with allOfRefs := o.allOfRefs ++ names } where
  nodup := ho.nodup
  declares := ho.declares
  admits := ho.admits
  branches name hm := (List.mem_append.1 hm).elim (ho.branches name) fun hm => (h name hm).1
  merges name hm := (List.mem_append.1 hm).elim (ho.merges name) fun hm => (h name hm).2
  members := ho.members

theorem Sourced.merge {name : String} {o branch o' : ObjectShape} {inlineBranch : Bool}
    (ho : scope.Sourced o) (hb : scope.Sourced branch)
    (h : o.merge name branch inlineBranch = .ok o') : scope.Sourced o' := by
  have hwithin := (ObjectShape.merge_within h).1
  rw [ObjectShape.merge_eq_ok h] at hwithin ⊢
  refine ⟨ObjectShape.nodup_foldl_put ho.nodup, ?_, ?_, ho.branches,
    fun name hm => (ho.merges name hm).mono hwithin, ho.members⟩
  · intro p hp
    rcases ObjectShape.mem_of_mem_foldl_put hp with hp | hp
    · exact hb.declares p hp
    · exact ho.declares p hp
  · intro a ha
    change (branch.additional.orElse fun _ => o.additional) = some a at ha
    rw [Option.orElse_eq_or, Option.or_eq_some_iff] at ha
    rcases ha with ha | ⟨-, ha⟩
    · exact hb.admits a ha
    · exact ho.admits a ha

/-- After a schema's own declarations a property is the last one of its key among these, or is
none of them. -/
theorem declareOwn_eq_ok {name : String} {pointer : Pointer} {o o' : ObjectShape}
    {declarations : List (String × Node)}
    (h : (scope.declareOwn name pointer o declarations).outcome = .ok o')
    (hn : (o.properties.map ResolvedProperty.key).Nodup) :
    (o'.properties.map ResolvedProperty.key).Nodup ∧
      o' = { o with properties := o'.properties } ∧
      ∀ p ∈ o'.properties,
        (∃ node, declarations.reverse.lookup p.key = some node ∧
          (scope.resolveProperty name pointer p.key node).outcome = .ok p) ∨
        (p ∈ o.properties ∧ declarations.reverse.lookup p.key = none) := by
  induction declarations generalizing o with
  | nil =>
    cases h
    exact ⟨hn, rfl, fun p hp => .inr ⟨hp, rfl⟩⟩
  | cons e rest ih =>
    obtain ⟨key, node⟩ := e
    unfold declareOwn at h
    simp only [Traced.outcome_bind_eq_ok_iff, Traced.outcome_lift] at h
    obtain ⟨p₀, h₀, o₁, h₁, h⟩ := h
    have hkey : p₀.key = key := by
      obtain ⟨_, hk, -⟩ := resolveProperty_eq_ok h₀
      exact hk
    rw [ObjectShape.declare_eq_ok h₁] at h
    -- the later declarations are put over this one
    obtain ⟨hn', he, hall⟩ := ih h (ObjectShape.nodup_put hn)
    refine ⟨hn', he, ?_⟩
    intro p hp
    rw [List.reverse_cons, List.lookup_append]
    rcases hall p hp with ⟨node', hl, hr⟩ | ⟨hm, hl⟩
    · exact .inl ⟨node', by rw [hl]; rfl, hr⟩
    · rw [hl, Option.none_or, NameMap.lookup_cons_ite, List.lookup_nil]
      rcases (ObjectShape.mem_put hn).1 hm with rfl | ⟨hm, hne⟩
      · exact .inl ⟨node, if_pos hkey, by rw [hkey]; exact h₀⟩
      · exact .inr ⟨hm, if_neg fun hk => hne (hk.trans hkey.symm)⟩

theorem declareOwn_within {name : String} {pointer : Pointer} {o o' : ObjectShape}
    {declarations : List (String × Node)}
    (h : (scope.declareOwn name pointer o declarations).outcome = .ok o') : o.Within o' := by
  induction declarations generalizing o with
  | nil =>
    cases h
    exact .refl _
  | cons e rest ih =>
    obtain ⟨key, node⟩ := e
    unfold declareOwn at h
    simp only [Traced.outcome_bind_eq_ok_iff, Traced.outcome_lift] at h
    obtain ⟨p, -, o₁, h₁, h⟩ := h
    exact (ObjectShape.declare_within h₁).1.trans (ih h)

theorem mergeOwn_eq_ok {name : String} {pointer : Pointer} {s : Schema} {o o' : ObjectShape}
    (h : (scope.mergeOwn name pointer s o).outcome = .ok o') :
    ∃ o₁ additional, (scope.declareOwn name pointer o s.properties).outcome = .ok o₁ ∧
      ((s.additional = none ∧ additional = o₁.additional) ∨
        ∃ a, s.additional = some a ∧
          (scope.additionalType name pointer a).outcome = .ok additional) ∧
      o' = { o₁ with
        required := NameSet.addAll o₁.required s.required
        additional
        discriminator := s.discriminator.orElse fun _ => o₁.discriminator } := by
  unfold mergeOwn at h
  rw [Traced.outcome_bind_eq_ok_iff] at h
  obtain ⟨o₁, h₁, h⟩ := h
  cases hs : s.additional with
  | none =>
    simp only [hs] at h
    cases h
    exact ⟨o₁, o₁.additional, h₁, .inl ⟨rfl, rfl⟩, rfl⟩
  | some a =>
    simp only [hs, Traced.outcome_bind_eq_ok_iff, Traced.outcome_pure] at h
    obtain ⟨additional, ha, h⟩ := h
    cases h
    exact ⟨o₁, additional, h₁, .inr ⟨a, rfl, ha⟩, rfl⟩

theorem Sourced.mergeOwn {name : String} {pointer : Pointer} {s : Schema} {o o' : ObjectShape}
    (ho : scope.Sourced o) (hp : scope.placeAt pointer = some (.owner name s))
    (h : (scope.mergeOwn name pointer s o).outcome = .ok o') : scope.Sourced o' := by
  obtain ⟨o₁, additional, h₁, ha, rfl⟩ := mergeOwn_eq_ok h
  obtain ⟨hn, he, hall⟩ := declareOwn_eq_ok h₁ ho.nodup
  have hb : o₁.allOfRefs = o.allOfRefs := by rw [he]
  have hm : o₁.unionMembers = o.unionMembers := by rw [he]
  have hwithin : o.Within o₁ := declareOwn_within h₁
  refine ⟨hn, ?_, ?_, hb ▸ ho.branches, hb ▸ fun name hm => (ho.merges name hm).mono hwithin,
    hm ▸ ho.members⟩
  · intro p hm
    rcases hall p hm with ⟨node, hl, hr⟩ | ⟨hm, -⟩
    · exact ⟨name, pointer, s, node, hp, hl, hr⟩
    · exact ho.declares p hm
  · intro a hsome
    change additional = some a at hsome
    subst hsome
    rcases ha with ⟨-, ha⟩ | ⟨add, hs, ha⟩
    · rw [he] at ha
      exact ho.admits a ha.symm
    · exact ⟨name, pointer, s, add, hp, hs, ha⟩

omit [Libraries] in
theorem of_drop_eq_cons {α : Type} {l rest : List α} {index : Nat} {a : α}
    (h : l.drop index = a :: rest) : l[index]? = some a ∧ l.drop (index + 1) = rest := by
  constructor
  · rw [← List.head?_drop, h]
    rfl
  · rw [← List.tail_drop, h]
    rfl

theorem mergeComponent_eq_ok_iff {path : MergePath} {name : String} {o : ObjectShape} :
    (scope.mergeComponent path name).outcome = .ok o ↔ name ∉ path.components ∧
      ∃ s, scope.document.definition? name = some s ∧
        (scope.mergeSchema (path ++ [(.ofComponent name, name)]) name (.ofComponent name)
          s).outcome = .ok o := by
  rw [mergeComponent_eq]
  by_cases hp : name ∈ path.components
  · simp [hp]
  · cases scope.document.definition? name with
    | none => simp [hp]
    | some s => simp [hp]

/-- Induction on merging that succeeds, along the three functions that call each other: a schema
adds its own keywords to its branches, a branch is a component or a schema, and a component is the
schema that it is defined as. -/
theorem merging_induction
    {schema : MergePath → String → Pointer → Schema → ObjectShape → Prop}
    {branches : MergePath → String → Pointer → Nat → List Node → ObjectShape → ObjectShape → Prop}
    {component : MergePath → String → ObjectShape → Prop}
    (own : ∀ path name pointer s merged o,
      (scope.mergeBranches path name pointer 0 s.allOf .empty).outcome = .ok merged →
      (scope.mergeOwn name pointer s merged).outcome = .ok o →
      branches path name pointer 0 s.allOf .empty merged → schema path name pointer s o)
    (nil : ∀ path name pointer index o, branches path name pointer index [] o o)
    (ref : ∀ path name pointer index target rest o parent inherited merged o',
      scope.document.resolveRef name target = .ok parent →
      (scope.mergeComponent path parent).outcome = .ok inherited →
      o.merge name inherited false = .ok merged →
      component path parent inherited →
      branches path name pointer (index + 1) rest
        { merged with allOfRefs := merged.allOfRefs ++ [parent] } o' →
      branches path name pointer index (.ref target :: rest) o o')
    (inline : ∀ path name pointer index s rest o inherited merged o',
      o.merge name inherited true = .ok merged →
      schema (path ++ [(pointer.push (.allOf index), name)]) name (pointer.push (.allOf index)) s
        inherited →
      branches path name pointer (index + 1) rest
        { merged with allOfRefs := merged.allOfRefs ++ inherited.allOfRefs } o' →
      branches path name pointer index (.schema s :: rest) o o')
    (found : ∀ path name s o, name ∉ path.components → scope.document.definition? name = some s →
      schema (path ++ [(.ofComponent name, name)]) name (.ofComponent name) s o →
      component path name o) :
    (∀ path name pointer s o, (scope.mergeSchema path name pointer s).outcome = .ok o →
      schema path name pointer s o) ∧
    (∀ path name pointer index nodes o o',
      (scope.mergeBranches path name pointer index nodes o).outcome = .ok o' →
      branches path name pointer index nodes o o') ∧
    ∀ path name o, (scope.mergeComponent path name).outcome = .ok o → component path name o := by
  apply mergeSchema.mutual_induct scope
  case case1 =>
    intro path name pointer s ih o h
    rw [mergeSchema, Traced.outcome_bind_eq_ok_iff] at h
    obtain ⟨merged, hmerged, h⟩ := h
    exact own _ _ _ _ _ _ hmerged h (ih merged hmerged)
  case case2 =>
    intro path name pointer index o o' h
    rw [mergeBranches] at h
    cases h
    exact nil _ _ _ _ _
  case case3 =>
    intro path name pointer index o target rest ihc ihr o' h
    simp only [mergeBranches, Traced.outcome_bind_eq_ok_iff, Traced.outcome_lift] at h
    obtain ⟨parent, hr, inherited, hi, merged, hm, h⟩ := h
    exact ref _ _ _ _ _ _ _ _ _ _ _ hr hi hm (ihc parent inherited hi) (ihr parent merged o' h)
  case case4 =>
    intro path name pointer index o s rest inner ihs ihr o' h
    simp only [mergeBranches, Traced.outcome_bind_eq_ok_iff, Traced.outcome_lift] at h
    obtain ⟨inherited, hi, merged, hm, h⟩ := h
    exact inline _ _ _ _ _ _ _ _ _ _ hm (ihs inherited hi) (ihr inherited merged o' h)
  case case5 =>
    intro path name hm o h
    exact absurd hm (mergeComponent_eq_ok_iff.1 h).1
  case case6 =>
    intro path name hm hn o h
    obtain ⟨-, s, hs, -⟩ := mergeComponent_eq_ok_iff.1 h
    rw [hn] at hs
    cases hs
  case case7 =>
    intro path name hm s hs ih o h
    obtain ⟨-, t, ht, h⟩ := mergeComponent_eq_ok_iff.1 h
    rw [hs, Option.some.injEq] at ht
    subst ht
    exact found _ _ _ _ hm hs (ih o h)

/-- Merging gives sourced objects. The branches that are left are those of the schema from an index
on, which gives their positions. -/
theorem merging_sourced (scope : Scope) :
    (∀ path name pointer s o, (scope.mergeSchema path name pointer s).outcome = .ok o →
      scope.placeAt pointer = some (.owner name s) → scope.Sourced o) ∧
    (∀ path name pointer index branches o o',
      (scope.mergeBranches path name pointer index branches o).outcome = .ok o' →
      ∀ s, scope.placeAt pointer = some (.owner name s) → s.allOf.drop index = branches →
        scope.Sourced o → scope.Sourced o') ∧
    ∀ path name o, (scope.mergeComponent path name).outcome = .ok o → scope.Sourced o := by
  apply merging_induction
  case own =>
    intro path name pointer s merged o hmerged hown ih hp
    exact (ih s hp rfl (sourced_empty scope)).mergeOwn hp hown
  case nil =>
    intro path name pointer index o s hp hd ho
    exact ho
  case ref =>
    intro path name pointer index target rest o parent inherited merged o' hr hi hm ihc ihr s hp hd
      ho
    have hparent : scope.Merges merged parent :=
      ⟨path, inherited, hi, (ObjectShape.merge_within hm).2⟩
    refine ihr s hp (of_drop_eq_cons hd).2 ((ho.merge ihc hm).addBranches ?_)
    intro other hother
    rw [List.mem_singleton.1 hother]
    exact ⟨Document.canonical_of_resolveRef hr, hparent⟩
  case inline =>
    intro path name pointer index inner rest o inherited merged o' hm ihs ihr s hp hd ho
    obtain ⟨hindex, hrest⟩ := of_drop_eq_cons hd
    have hplace : scope.placeAt (pointer.push (.allOf index)) = some (.owner name inner) := by
      rw [placeAt_push, hp, Option.bind_some, childPlace, hindex]
      rfl
    have hinherited := ihs hplace
    refine ihr s hp hrest ((ho.merge hinherited hm).addBranches ?_)
    intro other hother
    have hother' := (hinherited.merges other hother).mono (ObjectShape.merge_within hm).2
    exact ⟨hinherited.branches other hother, hother'⟩
  case found =>
    intro path name s o hpath hs ih
    exact ih (placeAt_ofComponent hs)

omit [Libraries] in
theorem unionMembers_canonical {name : String} {index : Nat} {members members' : List String}
    {nodes : List Node} (hm : ∀ m ∈ members, scope.document.Canonical m)
    (h : (scope.unionMembers name index members nodes).outcome = .ok members') :
    ∀ m ∈ members', scope.document.Canonical m := by
  induction nodes generalizing index members with
  | nil =>
    cases h
    exact hm
  | cons node rest ih =>
    cases node with
    | ref target =>
      simp only [unionMembers, Traced.outcome_bind_eq_ok_iff, Traced.outcome_lift] at h
      obtain ⟨member, hr, h⟩ := h
      refine ih ?_ h
      intro m hmem
      split at hmem
      · exact hm m hmem
      · rcases List.mem_append.1 hmem with hmem | hmem
        · exact hm m hmem
        · exact List.mem_singleton.1 hmem ▸ Document.canonical_of_resolveRef hr
    | schema s =>
      simp only [unionMembers, Traced.outcome_bind_eq_ok_iff] at h
      obtain ⟨-, -, h⟩ := h
      exact ih hm h

/-- The shape of an object is what merging gives, up to the members of its union. -/
theorem objectShape_eq_ok {name : String} {pointer : Pointer} {s : Schema} {o : ObjectShape}
    (h : (scope.objectShape name pointer s).outcome = .ok o) :
    ∃ merged members, (scope.mergeSchema [(pointer, name)] name pointer s).outcome = .ok merged ∧
      o = { merged with unionMembers := members } := by
  unfold objectShape at h
  obtain ⟨merged, hmerged, h⟩ := Traced.outcome_bind_eq_ok_iff.1 h
  split at h
  · cases h
    exact ⟨o, o.unionMembers, hmerged, rfl⟩
  · obtain ⟨members, -, h⟩ := Traced.outcome_bind_eq_ok_iff.1 h
    cases h
    exact ⟨merged, members, hmerged, rfl⟩

theorem objectShape_sourced {name : String} {pointer : Pointer} {s : Schema} {o : ObjectShape}
    (hp : scope.placeAt pointer = some (.owner name s))
    (h : (scope.objectShape name pointer s).outcome = .ok o) : scope.Sourced o := by
  unfold objectShape at h
  rw [Traced.outcome_bind_eq_ok_iff] at h
  obtain ⟨o₁, h₁, h⟩ := h
  have ho := (merging_sourced scope).1 _ _ _ _ _ h₁ hp
  split at h
  · cases h
    exact ho
  · simp only [Traced.outcome_bind_eq_ok_iff, Traced.outcome_pure] at h
    obtain ⟨members, hm, h⟩ := h
    cases h
    exact ⟨ho.nodup, ho.declares, ho.admits, ho.branches, ho.merges,
      unionMembers_canonical ho.members hm⟩

theorem Sourced.inlines_placed {o : ObjectShape} (ho : scope.Sourced o) :
    ∀ i ∈ o.inlines, scope.Placed i := by
  intro i hi
  rcases ObjectShape.mem_inlines_iff.1 hi with ⟨p, hp, hi⟩ | ⟨a, ha, hi⟩
  · exact (ho.declares p hp).placed i hi
  · exact (ho.admits a ha).placed i hi

end Scope

end SchemaModel
