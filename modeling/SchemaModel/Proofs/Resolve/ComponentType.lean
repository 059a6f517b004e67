import SchemaModel.Proofs.Computed
import SchemaModel.Proofs.Resolve.Inlined
import SchemaModel.Proofs.Resolve.Recall

/-!
Typing a reference against resolving the component. The type that a resolver finds for a reference
to a component is that of the shape to which the component is resolved, with the same names for
what stands inside. Where the shape has a name, it is that of a component which is resolved to this
very shape (`Resolver.componentTypeM_of_resolveComponent`).
-/

namespace SchemaModel

namespace Resolver

variable {scope : Scope} {name : String} {s : Schema} {shape : Shape}

/-- A component is resolved to its shape. -/
theorem resolveComponent_of_hasShape [Libraries] (hc : scope.document.Canonical name)
    (hs : scope.document.definition? name = some s)
    (h : scope.HasShape (.ofComponent name s) shape) :
    ((start scope).resolveComponent name).2 = .ok ((Site.ofComponent name s).resolved shape) := by
  have hw := (h.within hs).mono (Nat.le_succ _)
  obtain ⟨r, found, hr⟩ := resolveWithin_succeeds (ready_start scope) (hc.followAlias name) hs hw
  have hanswers : Answers scope name ((Site.ofComponent name s).resolved shape) :=
    ⟨name, s, shape, hc.followAlias name, hs, h, rfl⟩
  have hfits := (steady_start scope).fits (scope.document.names.length + 1) name
  have hsame : resolveComponent (start scope) name = (r, .ok found) := hr
  rw [hr] at hfits
  rw [hsame, (hfits.answers found rfl).unique hanswers]

/-- What a resolver between two components finds as a type, whatever it remembers. -/
theorem componentTypeM_of_componentType {type : TypeRef} {m : Memory} (hm : m.typing = [])
    (h : (scope.componentType [] name).outcome = .ok type) :
    (scope.componentTypeM scope.depth name m).2 = .ok type := by
  have hdepth : scope.document.unseen [] < scope.depth :=
    Nat.lt_succ_of_le (List.length_filter_le _ _)
  rw [Scope.componentTypeM_traces hdepth name m hm]
  exact congrArg Stop.ofExcept h

/-- A component that is no alias and is resolved to a shape is typed, with any memory, as the shape
says. Where an enum or object is named, it is the component itself, unless this is a union of `null`
with an inline one around a reference; and in any case a component of the same shape. -/
theorem componentTypeM_of_resolveComponent [Libraries] {found : Resolved}
    (hc : scope.document.Canonical name)
    (h : ((start scope).resolveComponent name).2 = .ok found) :
    ∃ owner source,
      (∀ m : Memory, m.typing = [] →
        (scope.componentTypeM scope.depth name m).2 = .ok (found.shape.typeAs owner)) ∧
      ((start scope).resolveComponent owner).2 = .ok source ∧
      source.name = owner ∧ source.shape = found.shape ∧
      (owner = name ∨ ∃ s keyword index inner, scope.document.definition? name = some s ∧
        s.category = .nullableOf ⟨keyword, index, .schema inner⟩ ∧ inner.AroundReference) := by
  obtain ⟨s, hs, halias⟩ := hc.definition
  have hshape := hasShape_of_resolveComponent hc hs h
  obtain ⟨owner, t, hcanonical, ht, hsame, htype, howner⟩ := hshape.exists_componentType hc hs
  refine ⟨owner, _, fun m hm => componentTypeM_of_componentType hm htype,
    resolveComponent_of_hasShape hcanonical ht hsame, rfl, rfl, ?_⟩
  rcases howner with rfl | haround
  · exact .inl rfl
  · cases haround with
    | reference union =>
      -- such a component is only another name
      simp [Node.aliasTarget?, Schema.category_nullableOf union] at halias
    | inside union around => exact .inr ⟨s, _, _, _, hs, union, around⟩

/-- A component that is an object or null or null, by way of a reference. -/
def nullTwice : Document :=
  let null : Node := .schema { Schema.empty with type := some (.single .null) }
  let orNull (node : Node) : Node := .schema { Schema.empty with oneOf := [node, null] }
  ⟨"3.0.3", default,
    [("C", orNull (orNull (.ref "#/components/schemas/A"))),
      ("A", .schema { Schema.empty with
        type := some (.single .object)
        properties := [("x", .schema { Schema.empty with type := some (.single .string) })] })],
    by decide⟩

theorem componentTypeM_of_resolveComponent_null_twice : nullTwice.Canonical "C" ∧
    ∃ found, ((start ⟨nullTwice, []⟩).resolveComponent "C").2 = .ok found ∧
    ∃ owner source,
      (∀ m : Memory, m.typing = [] →
        (Scope.componentTypeM ⟨nullTwice, []⟩ (Scope.depth ⟨nullTwice, []⟩) "C" m).2 =
          .ok (found.shape.typeAs owner)) ∧
      ((start ⟨nullTwice, []⟩).resolveComponent owner).2 = .ok source ∧
      source.name = owner ∧ source.shape = found.shape ∧
      (owner = "C" ∨ ∃ s keyword index inner, nullTwice.definition? "C" = some s ∧
        s.category = .nullableOf ⟨keyword, index, .schema inner⟩ ∧ inner.AroundReference) := by
  have hnode : (nullTwice.find? "C").map Node.aliasTarget? = some none := by cbv
  obtain ⟨node, hfind, halias⟩ := Option.map_eq_some_iff.1 hnode
  have hcanonical : nullTwice.Canonical "C" := ⟨node, hfind, halias⟩
  have hok : ((start ⟨nullTwice, []⟩).resolveComponent "C").2.toOption.isSome = true := by cbv
  obtain ⟨found, hfound⟩ := exists_eq_ok_of_isSome hok
  exact ⟨hcanonical, found, hfound, componentTypeM_of_resolveComponent hcanonical hfound⟩

end Resolver

end SchemaModel
