import SchemaModel.Proofs.Resolve.AliasChain
import SchemaModel.Proofs.Resolve.Session

/-!
When a pass ends. The fuel for going from one component to another one runs out only on a chain of
components each of which borrows its shape from the next, and a chain that is longer than the
list of components comes back to one of its own. So a pass ends with a result or an error for every
order and in all names exactly if no such chain returns to its start (`Document.pass_ends_iff`);
whatever other cycles there are do not keep it from that.
-/

namespace SchemaModel

open Relation

/-- A union with `null` around a reference, or around such a union. -/
inductive Schema.Around (path : String) : Schema → Prop where
  | reference {s : Schema} {keyword : UnionKeyword} {index : Nat}
      (union : s.category = .nullableOf ⟨keyword, index, .ref path⟩) : Around path s
  | inside {s inner : Schema} {keyword : UnionKeyword} {index : Nat}
      (union : s.category = .nullableOf ⟨keyword, index, .schema inner⟩)
      (around : Around path inner) : Around path s

namespace Document

variable {d : Document} {context path name other : String}

/-- The component has its shape from another one: it consists of unions with `null` around a
reference that leads to the other one, directly or by aliases. -/
def Borrows (d : Document) (name other : String) : Prop :=
  ∃ s path next, d.definition? name = some s ∧ s.Around path ∧
    Reference.component? path = some next ∧ ReflTransGen d.AliasOf next other ∧ d.Canonical other

theorem resolveRef_eq_ok_iff : d.resolveRef context path = .ok other ↔
    ∃ next, Reference.component? path = some next ∧ ReflTransGen d.AliasOf next other ∧
      d.Canonical other := by
  unfold resolveRef
  cases Reference.component? path with
  | none => simp
  | some next => simp [followAlias_eq_ok_iff]

theorem Borrows.mem_names (h : d.Borrows name other) : name ∈ d.names := by
  obtain ⟨s, path, next, hs, -⟩ := h
  exact mem_names_of_definition hs

/-- No chain of components that have their shapes from each other returns to its start. -/
def Settles (d : Document) : Prop := ∀ name, ¬TransGen d.Borrows name name

end Document

section

variable [Libraries]

namespace Scope

variable {scope : Scope} {name other path : String} {pointer : Pointer} {s : Schema}

theorem exists_around_of_sameAs (h : (scope.outline name pointer s).outcome = .ok (.sameAs other)) :
    ∃ path, s.Around path ∧ scope.document.resolveRef name path = .ok other :=
  sameAs_induction (motive := fun _ s => ∃ path, s.Around path ∧
      scope.document.resolveRef name path = .ok other)
    (fun _ _ _ _ target hc hr => ⟨target, .reference hc, hr⟩)
    (fun _ _ _ _ _ hc ⟨path, ha, hr⟩ => ⟨path, .inside hc ha, hr⟩) h

theorem outline_of_around (h : s.Around path)
    (hr : scope.document.resolveRef name path = .ok other) :
    (scope.outline name pointer s).outcome = .ok (.sameAs other) := by
  induction h generalizing pointer with
  | reference union =>
    simp only [outline_eq, union, Traced.outcome_bind_eq_ok_iff, Traced.outcome_lift,
      Traced.outcome_pure]
    exact ⟨other, hr, rfl⟩
  | inside union around ih =>
    rw [outline_eq, union]
    exact ih

/-- The outline of a component names another one exactly if it has its shape from that one. -/
theorem outlineAt_eq_sameAs_iff (hs : scope.document.definition? name = some s) :
    (scope.outlineAt (.ofComponent name s)).outcome = .ok (.sameAs other) ↔
      scope.document.Borrows name other := by
  constructor
  · intro h
    obtain ⟨path, ha, hr⟩ := exists_around_of_sameAs h
    obtain ⟨next, hnext⟩ := Document.resolveRef_eq_ok_iff.1 hr
    exact ⟨s, path, next, hs, ha, hnext⟩
  · rintro ⟨t, path, next, ht, ha, hnext⟩
    rw [hs, Option.some.injEq] at ht
    subst ht
    exact outline_of_around ha (Document.resolveRef_eq_ok_iff.2 ⟨next, hnext⟩)

/-- A component on a chain that returns has no shape. -/
theorem not_hasShape_of_returns (hs : scope.document.definition? name = some s)
    (h : TransGen scope.document.Borrows name name) (shape : Shape) :
    ¬scope.HasShape (.ofComponent name s) shape := by
  rintro ⟨n, hw⟩
  induction n generalizing name s with
  | zero => cases hw
  | succ n ih =>
    obtain ⟨next, hstep, hback⟩ := TransGen.head'_iff.1 h
    have houtline := (outlineAt_eq_sameAs_iff hs).2 hstep
    cases hw with
    | own outline =>
      rw [houtline] at outline
      cases outline
    | same outline definition within =>
      rw [houtline] at outline
      cases outline
      exact ih definition (TransGen.tail' hback hstep) within

end Scope

namespace Resolver

variable {scope : Scope} {order : List String} {r : Resolver} {name target : String}

/-- On a chain that returns no fuel is enough. -/
theorem resolveWithin_of_returns (hr : Steady scope r) (hc : scope.document.Canonical name)
    (h : TransGen scope.document.Borrows name name) (fuel : Nat) :
    (resolveWithin fuel r name).2 = .error .unfinished := by
  induction fuel generalizing r name with
  | zero => rfl
  | succ fuel ih =>
    obtain ⟨next, hstep, hback⟩ := TransGen.head'_iff.1 h
    obtain ⟨s, hs, -⟩ := hc.definition
    have hunknown : r.find? (.ofComponent name) = none := by
      cases hf : r.find? (.ofComponent name) with
      | none => rfl
      | some found =>
        obtain ⟨shape, hshape, -⟩ := hr.shape_of_find? hs hf
        exact absurd hshape (Scope.not_hasShape_of_returns hs h shape)
    obtain ⟨r₁, hr₁, hwithin⟩ :=
      @Steady.resolveWithin_of_unknown _ scope r fuel name name s hr (hc.followAlias name) hs
        hunknown
    have hnext : scope.document.Canonical next := by
      obtain ⟨-, -, -, -, -, -, -, hnext⟩ := hstep
      exact hnext
    have hrest := ih hr₁ hnext (TransGen.tail' hback hstep)
    rw [hwithin, (Scope.outlineAt_eq_sameAs_iff hs).2 hstep]
    dsimp only
    generalize resolveWithin fuel r₁ next = outcome at hrest
    obtain ⟨r₂, result⟩ := outcome
    cases hrest
    rfl

/-- The components met on the way are distinct, so there is fuel as long as one is left. -/
theorem resolveWithin_ends (hsettles : scope.document.Settles) {fuel : Nat} {met : List String}
    (hr : Steady scope r) (ht : scope.document.followAlias name name = .ok target)
    (hmem : ∀ other ∈ met, other ∈ scope.document.names) (hdistinct : met.Nodup)
    (hmet : ∀ other ∈ met, TransGen scope.document.Borrows other target)
    (hfuel : scope.document.names.length ≤ met.length + fuel) :
    (resolveWithin fuel r name).2 ≠ .error .unfinished := by
  have hc := Document.canonical_of_followAlias ht
  have hnew : (target :: met).Nodup :=
    List.nodup_cons.2 ⟨fun hm => hsettles target (hmet target hm), hdistinct⟩
  have hknown : ∀ other ∈ target :: met, other ∈ scope.document.names :=
    List.forall_mem_cons.2 ⟨hc.mem_names, hmem⟩
  induction fuel generalizing r name target met with
  | zero =>
    have hlength := (hnew.subperm hknown).length_le
    rw [List.length_cons] at hlength
    omega
  | succ fuel ih =>
    obtain ⟨s, hd, -⟩ := hc.definition
    cases hf : r.find? (.ofComponent target) with
    | some known =>
      rw [resolveWithin_of_known hr.ready ht hd hf]
      exact fun h => by cases h
    | none =>
      obtain ⟨r₁, hr₁, hwithin⟩ :=
        @Steady.resolveWithin_of_unknown _ scope r fuel name target s hr ht hd hf
      rw [hwithin]
      cases ho : (scope.outlineAt (.ofComponent target s)).outcome with
      | error e => exact fun h => by cases h
      | ok outline =>
        cases outline with
        | shape shape inlines => exact fun h => by cases h
        | sameAs other =>
          have hstep := (Scope.outlineAt_eq_sameAs_iff hd).1 ho
          have hother := (Scope.outline_sameAs ho).1
          have hmet' : ∀ before ∈ target :: met, TransGen scope.document.Borrows before other :=
            List.forall_mem_cons.2 ⟨.single hstep, fun before hb => (hmet before hb).tail hstep⟩
          have hrest := ih hr₁ (hother.followAlias other) hknown hnew hmet'
            (by rw [List.length_cons]; omega) hother
            (List.nodup_cons.2 ⟨fun hm => hsettles other (hmet' other hm), hnew⟩)
            (List.forall_mem_cons.2 ⟨hother.mem_names, hknown⟩)
          dsimp only
          generalize resolveWithin fuel r₁ other = outcome at hrest
          obtain ⟨r₂, result⟩ := outcome
          cases result with
          | error e => exact hrest
          | ok source => exact fun h => by cases h

theorem Steady.resolveComponent_ends (hr : Steady scope r) (hsettles : scope.document.Settles)
    (name : String) : (r.resolveComponent name).2 ≠ .error .unfinished := by
  rw [resolveComponent, hr.ready.scope_eq]
  cases ht : scope.document.followAlias name name with
  | error e =>
    rw [resolveWithin_of_error hr.ready ht]
    exact fun h => by cases h
  | ok target =>
    exact resolveWithin_ends hsettles hr ht (fun _ hm => by cases hm) List.nodup_nil
      (fun _ hm => by cases hm) (by omega)

theorem Steady.resolveAll_ends (hr : Steady scope r) (hsettles : scope.document.Settles)
    (names : List String) : r.resolveAll names ≠ .error .unfinished := by
  induction names generalizing r with
  | nil => exact fun h => by cases h
  | cons name rest ih =>
    have hname := hr.resolveComponent_ends hsettles name
    have hafter := (hr.fits (r.scope.document.names.length + 1) name).steady
    rw [resolveAll]
    rw [← resolveComponent] at hafter
    generalize r.resolveComponent name = outcome at hname hafter
    obtain ⟨r₁, result⟩ := outcome
    cases result with
    | error e => exact fun h => hname (by cases h; rfl)
    | ok found => exact ih hafter

theorem pass_ends (hsettles : scope.document.Settles) (order : List String) :
    pass scope order ≠ .error .unfinished := by
  intro h
  rcases bind_eq_error_iff.1 h with h | ⟨r, hr, h⟩
  · exact (steady_start scope).resolveAll_ends hsettles order h
  -- what waits after the components is drained, or one of the inline schemas fails
  · obtain ⟨hrun, -⟩ :=
      @resolveAll_run scope order _ r _ order (ready_start scope) (fun _ hm => hm) hr
    obtain ⟨i, error, -, -, hreason⟩ := @drain_error scope order { r with pending := [] } _ _ _ _
      (hrun.sound (sound_start scope order)) rfl (fun p hp => .inl hp) h
    cases hreason

/-- A pass that starts on a chain that returns does not end. -/
theorem pass_of_returns (hc : scope.document.Canonical name)
    (h : TransGen scope.document.Borrows name name) :
    pass scope [name] = .error .unfinished := by
  have hname : ((start scope).resolveComponent name).2 = .error .unfinished :=
    resolveWithin_of_returns (steady_start scope) hc h _
  have hstart : (start scope).resolveAll [name] = .error .unfinished := by
    rw [resolveAll]
    generalize (start scope).resolveComponent name = outcome at hname
    obtain ⟨r, result⟩ := outcome
    cases hname
    rfl
  rw [pass, hstart]
  rfl

end Resolver

omit [Libraries] in
theorem Stop.exists_ofExcept_iff {α : Type} {outcome : Except Stop α} :
    (∃ found, outcome = Stop.ofExcept found) ↔ outcome ≠ .error .unfinished := by
  constructor
  · rintro ⟨found, rfl⟩ h
    cases found <;> cases h
  · intro h
    cases outcome with
    | ok a => exact ⟨.ok a, rfl⟩
    | error reason =>
      cases reason with
      | failed e => exact ⟨.error e, rfl⟩
      | unfinished => exact absurd rfl h

/-- A pass ends with a result or an error, in every order and in all names, exactly if no chain of
components that have their shapes from each other returns to its start. -/
theorem Document.pass_ends_iff {d : Document} :
    (∀ renames order, ∃ outcome, Resolver.pass ⟨d, renames⟩ order = Stop.ofExcept outcome) ↔
      d.Settles := by
  simp only [Stop.exists_ofExcept_iff]
  constructor
  · intro hends name hreturns
    apply hends [] [name]
    have hc : d.Canonical name := by
      obtain ⟨-, -, -, -, -, -, -, -, -, hc⟩ := TransGen.tail'_iff.1 hreturns
      exact hc
    exact Resolver.pass_of_returns hc hreturns
  · intro hsettles renames order
    exact @Resolver.pass_ends _ ⟨d, renames⟩ hsettles order

end

/-- Unions with `null` around a reference to the component that they are the schema of. -/
def aroundItself : Document :=
  ⟨"3.0.3", default,
    [("A", .schema { Schema.empty with
      oneOf := [
        .schema { Schema.empty with
          anyOf := [.ref "#/components/schemas/A", .schema { Schema.empty with
            type := some (.single .null) }] },
        .schema { Schema.empty with type := some (.single .null) }] })], by decide⟩

example : Resolver.pass ⟨aroundItself, []⟩ ["A"] = .error .unfinished := by cbv

end SchemaModel
