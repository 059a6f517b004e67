import SchemaModel.Proofs.Resolve.Pass

/-!
A used resolver answers like a fresh one (`resolveEach_start`). Whatever was resolved before, and
however it ended, a resolver knows components with their right shapes, remembers what merging
finds, and is on no way (`Steady`). So a component that has a shape is resolved to it, by a resolver
that knows it as by one that does not; and a component that has none is never known, so that each
resolver goes along the same components to the same error.
-/

namespace SchemaModel

variable [Libraries]

namespace Resolver

variable {scope : Scope} {r r' : Resolver} {fuel : Nat} {name target : String} {s : Schema}

/-- Resolves one component after another, those that fail included. -/
def resolveEach (r : Resolver) : List String → List (Except Stop Resolved)
  | [] => []
  | name :: rest =>
    (r.resolveComponent name).2 :: resolveEach (r.resolveComponent name).1 rest

/-- What `name` is resolved to: the component that it stands for, with its shape. -/
def Answers (scope : Scope) (name : String) (found : Resolved) : Prop :=
  ∃ target s shape, scope.document.followAlias name name = .ok target ∧
    scope.document.definition? target = some s ∧ scope.HasShape (.ofComponent target s) shape ∧
      found = (Site.ofComponent target s).resolved shape

theorem Answers.unique {a b : Resolved} (ha : Answers scope name a) (hb : Answers scope name b) :
    a = b := by
  obtain ⟨target, s, shape, ht, hd, hshape, rfl⟩ := ha
  obtain ⟨target', s', shape', ht', hd', hshape', rfl⟩ := hb
  rw [ht, Except.ok.injEq] at ht'
  subst ht'
  rw [hd, Option.some.injEq] at hd'
  subst hd'
  rw [hshape.unique hshape']

/-- A resolver between two components. -/
structure Steady (scope : Scope) (r : Resolver) : Prop where
  ready : Ready scope r
  known : ∀ e ∈ r.resolved, ∃ name s shape, scope.document.definition? name = some s ∧
    scope.HasShape (.ofComponent name s) shape ∧
      e = (.ofComponent name, (Site.ofComponent name s).resolved shape)

theorem steady_start (scope : Scope) : Steady scope (start scope) :=
  ⟨ready_start scope, fun e he => by cases he⟩

theorem Steady.noteAlias (h : Steady scope r) (name target : String) :
    Steady scope (r.noteAlias name target) :=
  ⟨h.ready.noteAlias name target, by simpa using h.known⟩

theorem Steady.record (h : Steady scope r) (hd : scope.document.definition? target = some s)
    {shape : Shape} (hshape : scope.HasShape (.ofComponent target s) shape)
    (inlines : List Inline) :
    Steady scope (r.record ((Site.ofComponent target s).resolved shape) inlines) := by
  refine ⟨⟨h.ready.scope_eq, h.ready.memory⟩, ?_⟩
  intro e he
  rcases List.mem_append.1 he with he | he
  · exact h.known e he
  · exact ⟨target, s, shape, hd, hshape, List.mem_singleton.1 he⟩

/-- A component that is known is known with its shape. -/
theorem Steady.shape_of_find? (h : Steady scope r)
    (hd : scope.document.definition? target = some s) {found : Resolved}
    (hf : r.find? (.ofComponent target) = some found) :
    ∃ shape, scope.HasShape (.ofComponent target s) shape ∧
      found = (Site.ofComponent target s).resolved shape := by
  obtain ⟨name, t, shape, hd', hshape, he⟩ := h.known _ (knows_of_find? hf)
  rw [Prod.mk.injEq] at he
  obtain ⟨hp, rfl⟩ := he
  obtain rfl : target = name := congrArg Pointer.component hp
  rw [hd, Option.some.injEq] at hd'
  subst hd'
  exact ⟨shape, hshape, rfl⟩

theorem Steady.resolveWithin_of_unknown (h : Steady scope r)
    (ht : scope.document.followAlias name name = .ok target)
    (hd : scope.document.definition? target = some s)
    (hf : r.find? (.ofComponent target) = none) :
    ∃ r₁, Steady scope r₁ ∧ resolveWithin (fuel + 1) r name =
      match (scope.outlineAt (.ofComponent target s)).outcome with
      | .error e => (r₁, .error (.failed e))
      | .ok (.shape shape inlines) =>
        (r₁.record ((Site.ofComponent target s).resolved shape) inlines,
          .ok ((Site.ofComponent target s).resolved shape))
      | .ok (.sameAs other) =>
        match resolveWithin fuel r₁ other with
        | (r, .error e) => (r, .error e)
        | (r, .ok source) =>
          (r.record ((Site.ofComponent target s).resolved source.shape) [],
            .ok ((Site.ofComponent target s).resolved source.shape)) := by
  obtain ⟨r₁, merged, hr₁, hright, hwithin⟩ :=
    @Resolver.resolveWithin_of_unknown scope r _ fuel name target s h.ready ht hd hf
  have hbefore := h.noteAlias name target
  refine ⟨r₁, ?_, hwithin⟩
  subst hr₁
  exact ⟨⟨hbefore.ready.scope_eq, hright⟩, hbefore.known⟩

/-- An outcome that leaves a steady resolver, with the answer if there is a result. -/
structure Fits (scope : Scope) (name : String) (outcome : Resolver × Except Stop Resolved) :
    Prop where
  steady : Steady scope outcome.1
  answers : ∀ found, outcome.2 = .ok found → Answers scope name found

theorem fits_error (h : Steady scope r) (name : String) (e : Stop) :
    Fits scope name (r, .error e) := by
  refine ⟨h, ?_⟩
  intro found hfound
  cases hfound

theorem fits_ok (h : Steady scope r) {found : Resolved} (ha : Answers scope name found) :
    Fits scope name (r, .ok found) := by
  refine ⟨h, ?_⟩
  intro found hfound
  cases hfound
  exact ha

/-- Resolving a component leaves the resolver steady, also when it fails, and what it finds is the
answer. -/
theorem Steady.fits (h : Steady scope r) (fuel : Nat) (name : String) :
    Fits scope name (resolveWithin fuel r name) := by
  induction fuel generalizing r name with
  | zero => exact fits_error h name .unfinished
  | succ fuel ih =>
    cases ht : scope.document.followAlias name name with
    | error e =>
      rw [resolveWithin_of_error h.ready ht]
      exact fits_error h name (.failed e)
    | ok target =>
      obtain ⟨s, hd, -⟩ := (Document.canonical_of_followAlias ht).definition
      cases hf : r.find? (.ofComponent target) with
      | some known =>
        obtain ⟨shape, hshape, hknown⟩ := h.shape_of_find? hd hf
        rw [resolveWithin_of_known h.ready ht hd hf]
        exact fits_ok (h.noteAlias name target) ⟨target, s, shape, ht, hd, hshape, hknown⟩
      | none =>
        obtain ⟨r₁, h₁, hwithin⟩ := h.resolveWithin_of_unknown ht hd hf
        rw [hwithin]
        cases ho : (scope.outlineAt (.ofComponent target s)).outcome with
        | error e => exact fits_error h₁ name (.failed e)
        | ok outline =>
          cases outline with
          | shape shape inlines =>
            have hshape : scope.HasShape (.ofComponent target s) shape := ⟨1, .own ho⟩
            exact fits_ok (h₁.record hd hshape inlines) ⟨target, s, shape, ht, hd, hshape, rfl⟩
          | sameAs other =>
            have hother := ih h₁ other
            dsimp only
            generalize resolveWithin fuel r₁ other = outcome at hother
            obtain ⟨r₂, result⟩ := outcome
            cases result with
            | error e => exact fits_error hother.steady name e
            | ok source =>
              -- the other component is no alias, so it is the one that was resolved
              obtain ⟨other', t, shape, ht', hd', ⟨n, hw⟩, rfl⟩ := hother.answers source rfl
              have hc := (Scope.outline_sameAs ho).1
              rw [hc.followAlias, Except.ok.injEq] at ht'
              subst ht'
              have hshape : scope.HasShape (.ofComponent target s) shape :=
                ⟨n + 1, .same ho hd' hw⟩
              exact fits_ok (hother.steady.record hd hshape [])
                ⟨target, s, shape, ht, hd, hshape, rfl⟩

/-- A component without a shape is known to no resolver, so all go the same way to the error. -/
theorem resolveWithin_eq_of_shapeless (h : Steady scope r) (h' : Steady scope r')
    (ht : scope.document.followAlias name name = .ok target)
    (hd : scope.document.definition? target = some s)
    (hnone : ∀ shape, ¬scope.HasShape (.ofComponent target s) shape) :
    (resolveWithin fuel r name).2 = (resolveWithin fuel r' name).2 := by
  induction fuel generalizing r r' name target s with
  | zero => rfl
  | succ fuel ih =>
    have hunknown : ∀ q : Resolver, Steady scope q → q.find? (.ofComponent target) = none := by
      intro q hq
      cases hf : q.find? (.ofComponent target) with
      | none => rfl
      | some found =>
        obtain ⟨shape, hshape, -⟩ := hq.shape_of_find? hd hf
        exact absurd hshape (hnone shape)
    obtain ⟨r₁, h₁, hwithin⟩ := h.resolveWithin_of_unknown ht hd (hunknown r h)
    obtain ⟨r₁', h₁', hwithin'⟩ := h'.resolveWithin_of_unknown ht hd (hunknown r' h')
    rw [hwithin, hwithin']
    cases ho : (scope.outlineAt (.ofComponent target s)).outcome with
    | error e => rfl
    | ok outline =>
      cases outline with
      | shape shape inlines => rfl
      | sameAs other =>
        have hc := (Scope.outline_sameAs ho).1
        obtain ⟨t, hd', -⟩ := hc.definition
        have hnone' : ∀ shape, ¬scope.HasShape (.ofComponent other t) shape := by
          rintro shape ⟨n, hw⟩
          exact hnone shape ⟨n + 1, .same ho hd' hw⟩
        have hsame := ih h₁ h₁' (hc.followAlias other) hd' hnone'
        dsimp only
        generalize resolveWithin fuel r₁ other = outcome at hsame
        generalize resolveWithin fuel r₁' other = outcome' at hsame
        obtain ⟨r₂, result⟩ := outcome
        obtain ⟨r₂', result'⟩ := outcome'
        obtain rfl : result = result' := hsame
        cases result with
        | error e => rfl
        | ok source => rfl

/-- Whatever was resolved before, a name is resolved to the same schema or fails with the same
error. -/
theorem Steady.resolveComponent_eq (h : Steady scope r) (h' : Steady scope r') (name : String) :
    (r.resolveComponent name).2 = (r'.resolveComponent name).2 := by
  have hfits := h.fits (scope.document.names.length + 1) name
  have hfits' := h'.fits (scope.document.names.length + 1) name
  rw [resolveComponent, resolveComponent, h.ready.scope_eq, h'.ready.scope_eq]
  cases ht : scope.document.followAlias name name with
  | error e => rw [resolveWithin_of_error h.ready ht, resolveWithin_of_error h'.ready ht]
  | ok target =>
    obtain ⟨s, hd, -⟩ := (Document.canonical_of_followAlias ht).definition
    by_cases hshape : ∃ shape, scope.HasShape (.ofComponent target s) shape
    · obtain ⟨shape, hshape⟩ := hshape
      have hw := (hshape.within hd).mono (Nat.le_succ _)
      obtain ⟨r₁, found, hr₁⟩ := resolveWithin_succeeds h.ready ht hd hw
      obtain ⟨r₁', found', hr₁'⟩ := resolveWithin_succeeds h'.ready ht hd hw
      rw [hr₁] at hfits
      rw [hr₁'] at hfits'
      rw [hr₁, hr₁', (hfits.answers found rfl).unique (hfits'.answers found' rfl)]
    · exact resolveWithin_eq_of_shapeless h h' ht hd fun shape hs => hshape ⟨shape, hs⟩

theorem Steady.resolveEach_eq (h : Steady scope r) (names : List String) :
    r.resolveEach names = names.map fun name => ((start scope).resolveComponent name).2 := by
  induction names generalizing r with
  | nil => rfl
  | cons name rest ih =>
    have hafter : Steady scope (r.resolveComponent name).1 := (h.fits _ name).steady
    rw [resolveEach, List.map_cons, ih hafter, h.resolveComponent_eq (steady_start scope)]

/-- Resolving components one after another on one resolver, also after errors, gives for each what
a new resolver gives for it alone. -/
theorem resolveEach_start (scope : Scope) (names : List String) :
    (start scope).resolveEach names =
      names.map fun name => ((start scope).resolveComponent name).2 :=
  (steady_start scope).resolveEach_eq names

end Resolver

end SchemaModel
