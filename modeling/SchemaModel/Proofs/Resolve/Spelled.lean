import SchemaModel.Proofs.Resolve.Contents
import SchemaModel.Proofs.Resolve.Names
import SchemaModel.Proofs.Resolve.Typing

/-!
The type of a component is that of its shape (`HasShape.exists_componentType`), although a reference
is typed with the components on the way in mind, and the shape is not: a component that came back
to itself would have no shape either. Scalars, arrays and maps are spelled out as what they are
wherever they are referred to; an enum or object is known by the name of the component whose own
shape it is.

Where a type that is spelled out names components only, it is found again for the same schema
written at another place (`typeNode_of_namedType`).
-/

namespace SchemaModel

namespace Schema

theorem category_of_nullableUnion {s : Schema} {u : NullableUnion}
    (h : s.nullableUnion? = some u) : s.category = .enum ∨ s.category = .nullableOf u := by
  unfold category
  by_cases he : s.hasEnumValues
  · rw [if_pos he]
    exact .inl rfl
  · rw [if_neg he, h]
    exact .inr rfl

theorem nullableUnion_of_category {s : Schema} (henum : s.category ≠ .enum)
    (hunion : ∀ u, s.category ≠ .nullableOf u) : s.nullableUnion? = none := by
  cases hu : s.nullableUnion? with
  | none => rfl
  | some u =>
    rcases category_of_nullableUnion hu with hc | hc
    · exact absurd hc henum
    · exact absurd hc (hunion u)

theorem nullableUnion_of_hasUnion {s : Schema} (h : s.hasUnion = false) :
    s.nullableUnion? = none := by
  simp only [hasUnion, Bool.or_eq_false_iff, Bool.not_eq_false', List.isEmpty_iff] at h
  simp [nullableUnion?, h.1, h.2, besideNull?]

theorem category_of_singleAllOfRef {s : Schema} {target : String}
    (h : s.singleAllOfRef? = some target) : s.category = .object := by
  unfold singleAllOfRef? at h
  split at h
  · rename_i path hall
    split at h
    · rename_i hbare
      simp only [Bool.and_eq_true, Bool.not_eq_true'] at hbare
      obtain ⟨⟨⟨⟨-, hunion⟩, -⟩, -⟩, henum⟩ := hbare
      unfold category
      simp [henum, nullableUnion_of_hasUnion hunion, hunion, hall]
    · cases h
  · cases h

/-- A union of `null` with a reference, or with such a union that stands in its place. -/
inductive AroundReference : Schema → Prop where
  | reference {s : Schema} {keyword : UnionKeyword} {index : Nat} {target : String}
      (union : s.category = .nullableOf ⟨keyword, index, .ref target⟩) : AroundReference s
  | inside {s inner : Schema} {keyword : UnionKeyword} {index : Nat}
      (union : s.category = .nullableOf ⟨keyword, index, .schema inner⟩)
      (around : AroundReference inner) : AroundReference s

end Schema

/-- The type of a value of this shape, where `name` is the name of the shape if it has one. -/
def Shape.typeAs (name : String) : Shape → TypeRef
  | .primitive type => .primitive type
  | .array items => .array items
  | .map values => .map values
  | .enum _ => .named name
  | .object _ => .named name

/-- The type of a value of this shape, unless the shape is known by name. -/
def Shape.spelled? : Shape → Option TypeRef
  | .primitive type => some (.primitive type)
  | .array items => some (.array items)
  | .map values => some (.map values)
  | .enum _ => none
  | .object _ => none

theorem Shape.typeAs_of_spelled {shape : Shape} {type : TypeRef} (h : shape.spelled? = some type)
    (name : String) : shape.typeAs name = type := by
  cases shape <;> cases h <;> rfl

theorem Shape.named?_of_spelled {shape : Shape} {type : TypeRef} (h : shape.spelled? = some type) :
    type.named? = none := by
  cases shape with
  | primitive type => cases h; rfl
  | array items => cases h; rfl
  | map values => cases h; rfl
  | enum e => cases h
  | object o => cases h

namespace Scope

variable {scope : Scope}

/-- A component is typed as its schema is, since the walk does not come back to the component. -/
theorem componentType_of_namedType {name : String} {s : Schema} {type : TypeRef}
    (hs : scope.document.definition? name = some s)
    (h : (scope.namedType [] name s (.ofComponent name)).outcome = .ok type) :
    (scope.componentType [] name).outcome = .ok type := by
  have hnamed := (typing_of_subset scope).2.2
  rw [componentType_eq, if_neg List.not_mem_nil, hs]
  rcases (typing_with scope [name]).2.2 _ _ _ _ _ h [name] (List.Subset.refl _) with
    hown | ⟨met, hmet, path, other, -, hother⟩
  · exact hown
  -- if it did, it would be typed there with more on the way
  · rw [List.mem_singleton.1 hmet, componentType_eq] at hother
    split at hother
    · cases hother
    · rw [hs] at hother
      have hown := hnamed _ _ _ _ _ hother [name] (List.subset_append_right _ _)
      have hnone := hnamed _ _ _ _ _ hother [] (List.nil_subset _)
      rw [h, Except.ok.injEq] at hnone
      rw [hnone]
      exact hown

section

variable [Libraries]

/-- A schema with a shape of its own is typed as its shape says. -/
theorem namedType_of_outline {name : String} {pointer : Pointer} {s : Schema} {shape : Shape}
    {inlines : List Inline}
    (h : (scope.outline name pointer s).outcome = .ok (.shape shape inlines)) :
    (scope.namedType [] name s pointer).outcome = .ok (shape.typeAs name) := by
  replace h := outlined_of_outline h
  induction h with
  | inside hc _ ih =>
    rw [namedType_eq, hc]
    exact ih
  | array hc ht | map hc ht =>
    simp only [namedType_eq, hc, Traced.outcome_bind_eq_ok_iff]
    exact ⟨_, ht, rfl⟩
  | enum hc | object hc | anyArray hc | anyMap hc | union hc | primitive hc =>
    simp only [namedType_eq, hc]
    rfl

/-- A schema that has the shape of another component has its type. -/
theorem namedType_of_sameAs {path : List String} {name other : String} {pointer : Pointer}
    {s : Schema} (h : (scope.outline name pointer s).outcome = .ok (.sameAs other)) :
    (scope.namedType path name s pointer).outcome = (scope.componentType path other).outcome := by
  refine sameAs_induction (motive := fun pointer s => (scope.namedType path name s pointer).outcome
    = (scope.componentType path other).outcome) ?reference ?inside h
  case reference =>
    intro pointer s keyword index target hc hr
    simp only [namedType_eq, hc]
    rw [Traced.bind_of_ok hr]
  case inside =>
    intro pointer s keyword index inner hc ih
    rw [namedType_eq, hc]
    exact ih

theorem aroundReference_of_sameAs {name other : String} {pointer : Pointer} {s : Schema}
    (h : (scope.outline name pointer s).outcome = .ok (.sameAs other)) : s.AroundReference :=
  sameAs_induction (motive := fun _ s => s.AroundReference)
    (fun _ _ _ _ _ hc _ => .reference hc) (fun _ _ _ _ _ hc ih => .inside hc ih) h

/-- The schema of a component is typed as its shape says, under the name of the component whose own
shape this is: the component itself, or where its schema is a union of `null` around a reference,
the one at the end of a chain of such components. -/
theorem HasShape.exists_namedType {name : String} {s : Schema} {shape : Shape}
    (h : scope.HasShape (.ofComponent name s) shape) :
    ∃ owner, (scope.namedType [] name s (.ofComponent name)).outcome = .ok (shape.typeAs owner) ∧
      (owner = name ∨ s.AroundReference ∧ scope.document.Canonical owner ∧
        ∃ t, scope.document.definition? owner = some t ∧
          scope.HasShape (.ofComponent owner t) shape) := by
  obtain ⟨n, h⟩ := h
  induction n generalizing name s with
  | zero => cases h
  | succ n ih =>
    cases h with
    | own outline => exact ⟨name, namedType_of_outline outline, .inl rfl⟩
    | @same _ _ _ other t outline definition within =>
      have houtline : (scope.outline name (.ofComponent name) s).outcome = _ := outline
      have haround := aroundReference_of_sameAs houtline
      obtain ⟨owner, htype, howner⟩ := ih within
      refine ⟨owner, ?_, .inr ⟨haround, ?_⟩⟩
      · rw [namedType_of_sameAs houtline]
        exact componentType_of_namedType definition htype
      · rcases howner with rfl | ⟨-, howner⟩
        · exact ⟨(outline_sameAs outline).1, t, definition, n, within⟩
        · exact howner

/-- A component is typed as its shape says, under the name of a component of the same shape. -/
theorem HasShape.exists_componentType {name : String} {s : Schema} {shape : Shape}
    (h : scope.HasShape (.ofComponent name s) shape) (hc : scope.document.Canonical name)
    (hs : scope.document.definition? name = some s) :
    ∃ owner t, scope.document.Canonical owner ∧ scope.document.definition? owner = some t ∧
      scope.HasShape (.ofComponent owner t) shape ∧
      (scope.componentType [] name).outcome = .ok (shape.typeAs owner) ∧
      (owner = name ∨ s.AroundReference) := by
  obtain ⟨owner, htype, howner⟩ := h.exists_namedType
  have hcomponent := componentType_of_namedType hs htype
  rcases howner with rfl | ⟨haround, hcanonical, t, ht, hsame⟩
  · exact ⟨owner, s, hc, hs, h, hcomponent, .inl rfl⟩
  · exact ⟨owner, t, hcanonical, ht, hsame, hcomponent, .inr haround⟩

/-- A shape that has no name is the type of the schema. -/
theorem HasShape.namedType {name : String} {s : Schema} {shape : Shape} {type : TypeRef}
    (h : scope.HasShape (.ofComponent name s) shape) (ht : shape.spelled? = some type) :
    (scope.namedType [] name s (.ofComponent name)).outcome = .ok type := by
  obtain ⟨owner, htype, -⟩ := h.exists_namedType
  rw [htype, Shape.typeAs_of_spelled ht]

end

variable {path : List String} {context context' base base' : String} {pointer pointer' : Pointer}

/-- A type that names components only is found again at another place, since what stands inside
a schema is never named like a component. -/
theorem typeNode_elsewhere (ha : scope.AvoidsComponents) {node : Node} {type : TypeRef}
    {inlines : List Inline}
    (h : (scope.typeNode path context base node pointer).outcome = .ok (type, inlines))
    (hn : ∀ name, type.element.named? = some name → name ∈ scope.document.names) :
    (scope.typeNode path context' base' node pointer').outcome = .ok (type, []) := by
  rw [typeNode_eq_ok_iff] at h ⊢
  induction h generalizing base' pointer' with
  | reference hr ht => exact .reference (Document.resolveRef_context hr) ht
  | wrapper hw hr ht => exact .wrapper hw (Document.resolveRef_context hr) ht
  | enum | object => exact absurd (hn _ rfl) (ha.inlineName_notMem _ _)
  | nullable hw hc _ ih => exact .nullable hw hc (ih hn)
  | array hw hc _ ih => exact .array hw hc (ih hn)
  | map hw hc _ ih => exact .map hw hc (ih hn)
  | anyArray hw hc => exact .anyArray hw hc
  | anyMap hw hc => exact .anyMap hw hc
  | union hw hc => exact .union hw hc
  | primitive hw hc => exact .primitive hw hc

/-- The type that is spelled out for a reference is the one of the schema that is written in its
place. -/
theorem typeNode_of_namedType (ha : scope.AvoidsComponents) {name : String} {s : Schema}
    {type : TypeRef} (h : (scope.namedType path name s pointer).outcome = .ok type)
    (hspelled : type.named? = none)
    (hn : ∀ name, type.element.named? = some name → name ∈ scope.document.names) :
    (scope.typeNode path context base (.schema s) pointer').outcome = .ok (type, []) := by
  rw [typeNode_eq_ok_iff]
  induction hsize : sizeOf s using Nat.strongRecOn generalizing s pointer pointer' with
  | ind n ih =>
    rw [namedType_eq] at h
    cases hw : s.singleAllOfRef? with
    | some target =>
      rw [Schema.category_of_singleAllOfRef hw] at h
      cases h
      cases hspelled
    | none =>
      cases hc : s.category with
      | enum | object =>
        rw [hc] at h
        cases h
        cases hspelled
      | nullableOf union =>
        obtain ⟨keyword, index, inner⟩ := union
        cases inner with
        | ref target =>
          simp only [hc, Traced.outcome_bind_eq_ok_iff, Traced.outcome_lift] at h
          obtain ⟨other, hr, ht⟩ := h
          exact .nullable hw hc (.reference (Document.resolveRef_context hr) ht)
        | schema inner =>
          rw [hc] at h
          have hlt := Schema.category_nullableOf_lt hc
          simp only [Node.schema.sizeOf_spec] at hlt
          exact .nullable hw hc (ih _ (by omega) h rfl)
      | union =>
        simp only [hc, Traced.outcome_pure] at h
        cases h
        exact .union hw hc
      | array items =>
        cases items with
        | none =>
          simp only [hc] at h
          cases h
          exact .anyArray hw hc
        | some items =>
          simp only [hc, Traced.outcome_bind_eq_ok_iff, Traced.outcome_pure] at h
          obtain ⟨⟨t, found⟩, ht, h⟩ := h
          cases h
          exact .array hw hc (typed_of_typeNode (typeNode_elsewhere ha ht hn))
      | map values =>
        cases values with
        | none =>
          simp only [hc] at h
          cases h
          exact .anyMap hw hc
        | some values =>
          simp only [hc, Traced.outcome_bind_eq_ok_iff, Traced.outcome_pure] at h
          obtain ⟨⟨t, found⟩, ht, h⟩ := h
          cases h
          exact .map hw hc (typed_of_typeNode (typeNode_elsewhere ha ht hn))
      | primitive primitive =>
        simp only [hc] at h
        cases h
        exact .primitive hw hc

end Scope

end SchemaModel
