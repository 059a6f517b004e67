import SchemaModel.Proofs.Classify
import SchemaModel.Proofs.Resolve.Integrity

/-!
What an object takes over from its `allOf` branches. Merging looks at the schemas on the way only
to notice a cycle (`merging_of_subset`), so what is merged into an object is the object that the
graph has for the branch, and each property of the branch keeps its type
(`Document.resolve_includes`).
-/

namespace SchemaModel

variable [Libraries]

namespace Scope

theorem merging_of_subset (scope : Scope) :
    (∀ path name pointer s o, (scope.mergeSchema path name pointer s).outcome = .ok o →
      ∀ path' : MergePath, path'.components ⊆ path.components →
        (scope.mergeSchema path' name pointer s).outcome = .ok o) ∧
    (∀ path name pointer index branches o o',
      (scope.mergeBranches path name pointer index branches o).outcome = .ok o' →
      ∀ path' : MergePath, path'.components ⊆ path.components →
        (scope.mergeBranches path' name pointer index branches o).outcome = .ok o') ∧
    ∀ path name o, (scope.mergeComponent path name).outcome = .ok o →
      ∀ path' : MergePath, path'.components ⊆ path.components →
        (scope.mergeComponent path' name).outcome = .ok o := by
  have happend : ∀ (path path' more : MergePath), path'.components ⊆ path.components →
      (path' ++ more : MergePath).components ⊆ (path ++ more : MergePath).components := by
    intro path path' more hsub
    rw [MergePath.components_append, MergePath.components_append]
    exact List.append_subset.2 ⟨fun x hx => List.mem_append_left _ (hsub hx),
      List.subset_append_right _ _⟩
  apply merging_induction
  case own =>
    intro path name pointer s merged o hm hown ih path' hsub
    rw [mergeSchema, Traced.outcome_bind_eq_ok_iff]
    exact ⟨merged, ih path' hsub, hown⟩
  case nil =>
    intro path name pointer index o path' hsub
    rw [mergeBranches]
    rfl
  case ref =>
    intro path name pointer index target rest o parent inherited merged o' hr hi hm ihc ihr path'
      hsub
    simp only [mergeBranches, Traced.outcome_bind_eq_ok_iff, Traced.outcome_lift]
    exact ⟨parent, hr, inherited, ihc path' hsub, merged, hm, ihr path' hsub⟩
  case inline =>
    intro path name pointer index s rest o inherited merged o' hm ihs ihr path' hsub
    simp only [mergeBranches, Traced.outcome_bind_eq_ok_iff, Traced.outcome_lift]
    exact ⟨inherited, ihs _ (happend _ _ _ hsub), merged, hm, ihr path' hsub⟩
  -- a component that is not on the way is not on a shorter one
  case found =>
    intro path name s o hp hs ih path' hsub
    exact mergeComponent_eq_ok_iff.2 ⟨fun h => hp (hsub h), s, hs, ih _ (happend _ _ _ hsub)⟩

variable {scope : Scope}

/-- What is merged for a component is its own merged object. -/
theorem mergeSchema_of_mergeComponent {path : MergePath} {name : String} {s : Schema}
    {part : ObjectShape} (hs : scope.document.definition? name = some s)
    (h : (scope.mergeComponent path name).outcome = .ok part) :
    (scope.mergeSchema [(.ofComponent name, name)] name (.ofComponent name) s).outcome =
      .ok part := by
  obtain ⟨-, t, ht, hmerged⟩ := mergeComponent_eq_ok_iff.1 h
  rw [hs, Option.some.injEq] at ht
  subst ht
  refine (merging_of_subset scope).1 _ _ _ _ _ hmerged _ ?_
  rw [MergePath.components_append]
  exact List.subset_append_right _ _

/-- A component that is an object has the shape of what is merged for it. -/
theorem hasShape_of_mergeComponent {path : MergePath} {name : String} {s : Schema}
    {part : ObjectShape} {shape : Shape} (hs : scope.document.definition? name = some s)
    (hc : s.category = .object) (h : (scope.mergeComponent path name).outcome = .ok part)
    (hshape : scope.HasShape (.ofComponent name s) shape) :
    ∃ o, shape = .object o ∧ o.properties = part.properties := by
  obtain ⟨outline, ho⟩ := hshape.outline
  have hout := ho
  simp only [outlineAt, Site.ofComponent, outline_eq, hc, Traced.outcome_bind_eq_ok_iff,
    Traced.outcome_pure] at hout
  obtain ⟨o, hobject, hout⟩ := hout
  cases hout
  have hown : shape = .object o := hshape.unique ⟨1, .own ho⟩
  refine ⟨o, hown, ?_⟩
  obtain ⟨merged, members, hmerged, rfl⟩ := objectShape_eq_ok hobject
  rw [mergeSchema_of_mergeComponent hs h, Except.ok.injEq] at hmerged
  rw [hmerged]

end Scope

/-- The object of `schema` names the component `branch`, an object, in `allOf`. -/
def Document.Includes (d : Document) (g : Graph) (schema branch : String) : Prop :=
  ∃ o s, g.object? schema = some o ∧ branch ∈ o.allOfRefs ∧ d.definition? branch = some s ∧
    s.category = .object

/-- What is named in `allOf` is merged into an object, with its types. -/
theorem Document.resolve_includes {d : Document} {order : List String} {g : Graph}
    (hall : ∀ name ∈ d.names, name ∈ order) (h : d.resolve order = .ok g)
    {schema branch key : String} (hi : d.Includes g schema branch) {p : ResolvedProperty}
    (hp : g.property? branch key = some p) :
    ∃ q, g.property? schema key = some q ∧ q.type = p.type := by
  obtain ⟨renames, r, -, hr, hn, rfl⟩ := resolve_eq_ok h
  obtain ⟨o, s, ho, hm, hs, hc⟩ := hi
  obtain ⟨t, ht, hshape⟩ := Graph.object?_eq_some ho
  have hsourced := (hr.object_of_find? hn ht hshape).1
  have hcanonical := hsourced.branches branch hm
  obtain ⟨path, part, hpart, hwithin⟩ := hsourced.merges branch hm
  have hvisits : Scope.Visits ⟨d, renames⟩ order (.ofComponent branch s) :=
    .component (hall _ hcanonical.mem_names) (hcanonical.followAlias branch) hs
  obtain ⟨shape, hhas, hfound⟩ := hr.has_of_visits hn hvisits
  obtain ⟨found, rfl, hproperties⟩ := Scope.hasShape_of_mergeComponent hs hc hpart hhas
  have hbranch : r.toGraph.object? branch = some found := by
    have hname : r.toGraph.canonical branch = branch :=
      Resolver.canonical_toGraph (hr.find?_aliases_of_canonical hcanonical)
    rw [Graph.object?, Graph.get?, hname]
    exact Option.bind_eq_some_iff.2 ⟨_, hfound, rfl⟩
  rw [Graph.property?, hbranch, Option.bind_some, ObjectShape.property?, hproperties] at hp
  obtain ⟨q, hq, htype⟩ := hwithin key p hp
  exact ⟨q, by rw [Graph.property?, ho, Option.bind_some, hq], htype⟩

end SchemaModel
