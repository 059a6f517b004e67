import Mathlib.Data.List.Perm.Subperm
import Mathlib.Data.Nat.Find
import SchemaModel.Proofs.Resolve.Merge
import SchemaModel.Resolve.Resolver

/-!
Resolution without memory. A site is a schema with the name and position under which it is
resolved; `Scope.Visits` says which sites are met on the way from a list of components, and
`Scope.HasShape` which shape a site has, neither of them with regard to what was resolved before.

A position belongs to one site only (`Visits.site_eq`), a site has one shape only, and a chain of
components that share a shape is no longer than the list of components (`HasShape.within`).
-/

namespace SchemaModel

variable [Libraries]

def ObjectShape.types (o : ObjectShape) : List TypeRef :=
  o.properties.map ResolvedProperty.type ++ (o.additional.map AdditionalType.type).toList

/-- The types that a shape shows. -/
def Shape.types : Shape → List TypeRef
  | .primitive _ => []
  | .enum _ => []
  | .array items => [items]
  | .map values => [values]
  | .object o => o.types

structure Site where
  name : String
  pointer : Pointer
  inline : Bool
  schema : Schema

namespace Site

def ofComponent (name : String) (s : Schema) : Site := ⟨name, .ofComponent name, false, s⟩

def ofInline (i : Inline) : Site := ⟨i.name, i.pointer, true, i.schema⟩

/-- What a site is resolved to if it has the given shape. -/
def resolved (site : Site) (shape : Shape) : Resolved :=
  ⟨site.name, site.pointer, site.inline, site.schema.description, shape⟩

end Site

namespace Scope

def outlineAt (scope : Scope) (site : Site) : Traced Outline :=
  scope.outline site.name site.pointer site.schema

/-- The sites met from the components in `order`: these, the components that have the shape of a
site, and the schemas inside a site. -/
inductive Visits (scope : Scope) (order : List String) : Site → Prop where
  | component {name target : String} {s : Schema} (mem : name ∈ order)
      (follows : scope.document.followAlias name name = .ok target)
      (definition : scope.document.definition? target = some s) :
      Visits scope order (.ofComponent target s)
  | same {site : Site} {other : String} {s : Schema} (visits : Visits scope order site)
      (outline : (scope.outlineAt site).outcome = .ok (.sameAs other))
      (definition : scope.document.definition? other = some s) :
      Visits scope order (.ofComponent other s)
  | inside {site : Site} {shape : Shape} {inlines : List Inline} {i : Inline}
      (visits : Visits scope order site)
      (outline : (scope.outlineAt site).outcome = .ok (.shape shape inlines))
      (mem : i ∈ inlines) : Visits scope order (.ofInline i)

/-- The shape of a site, found in at most the given number of steps to other components. -/
inductive ShapeWithin (scope : Scope) : Nat → Site → Shape → Prop where
  | own {n : Nat} {site : Site} {shape : Shape} {inlines : List Inline}
      (outline : (scope.outlineAt site).outcome = .ok (.shape shape inlines)) :
      ShapeWithin scope (n + 1) site shape
  | same {n : Nat} {site : Site} {shape : Shape} {other : String} {s : Schema}
      (outline : (scope.outlineAt site).outcome = .ok (.sameAs other))
      (definition : scope.document.definition? other = some s)
      (within : ShapeWithin scope n (.ofComponent other s) shape) :
      ShapeWithin scope (n + 1) site shape

def HasShape (scope : Scope) (site : Site) (shape : Shape) : Prop :=
  ∃ n, scope.ShapeWithin n site shape

variable {scope : Scope} {order : List String}

/-- A schema has a shape of its own, inside however many unions with `null`. -/
inductive Outlined (scope : Scope) (name : String) :
    Pointer → Schema → Shape → List Inline → Prop where
  | inside {pointer : Pointer} {s inner : Schema} {shape : Shape} {inlines : List Inline}
      {keyword : UnionKeyword} {index : Nat}
      (category : s.category = .nullableOf ⟨keyword, index, .schema inner⟩)
      (within : Outlined scope name (pointer.push (keyword.step index)) inner shape inlines) :
      Outlined scope name pointer s shape inlines
  | enum {pointer : Pointer} {s : Schema} (category : s.category = .enum) :
      Outlined scope name pointer s (.enum s.enumDescriptor) []
  | object {pointer : Pointer} {s : Schema} {o : ObjectShape} (category : s.category = .object)
      (merged : (scope.objectShape name pointer s).outcome = .ok o) :
      Outlined scope name pointer s (.object o) o.inlines
  | array {pointer : Pointer} {s : Schema} {node : Node} {type : TypeRef} {inlines : List Inline}
      (category : s.category = .array (some node))
      (typed : (scope.typeNode [] name (name ++ "Item") node (pointer.push .items)).outcome =
        .ok (type, inlines)) :
      Outlined scope name pointer s (.array type) inlines
  | map {pointer : Pointer} {s : Schema} {node : Node} {type : TypeRef} {inlines : List Inline}
      (category : s.category = .map (some node))
      (typed : (scope.typeNode [] name (name ++ "Value") node
        (pointer.push .additional)).outcome = .ok (type, inlines)) :
      Outlined scope name pointer s (.map type) inlines
  | anyArray {pointer : Pointer} {s : Schema} (category : s.category = .array none) :
      Outlined scope name pointer s (.array .untyped) []
  | anyMap {pointer : Pointer} {s : Schema} (category : s.category = .map none) :
      Outlined scope name pointer s (.map .untyped) []
  | union {pointer : Pointer} {s : Schema} (category : s.category = .union) :
      Outlined scope name pointer s (.primitive .untyped) []
  | primitive {pointer : Pointer} {s : Schema} {type : Primitive}
      (category : s.category = .primitive type) :
      Outlined scope name pointer s (.primitive type) []

theorem outlined_of_outline {name : String} {pointer : Pointer} {s : Schema} {shape : Shape}
    {inlines : List Inline}
    (h : (scope.outline name pointer s).outcome = .ok (.shape shape inlines)) :
    scope.Outlined name pointer s shape inlines := by
  induction pointer, s using outline.induct with
  | case1 pointer s hc =>
    rw [outline_eq, hc] at h
    cases h
    exact .enum hc
  | case2 pointer s keyword index inner hc ih =>
    rw [outline_eq, hc] at h
    exact .inside hc (ih h)
  | case3 pointer s keyword index target hc =>
    simp [outline_eq, hc, Traced.outcome_map_eq_ok_iff] at h
  | case4 pointer s hc =>
    simp only [outline_eq, hc, Traced.outcome_bind_eq_ok_iff, Traced.outcome_pure] at h
    obtain ⟨-, -, h⟩ := h
    cases h
    exact .union hc
  | case5 pointer s hc =>
    simp only [outline_eq, hc, Traced.outcome_bind_eq_ok_iff, Traced.outcome_pure] at h
    obtain ⟨o, ho, h⟩ := h
    cases h
    exact .object hc ho
  | case6 pointer s hc =>
    rw [outline_eq, hc] at h
    cases h
    exact .anyArray hc
  | case7 pointer s items hc =>
    simp only [outline_eq, hc, Traced.outcome_bind_eq_ok_iff, Traced.outcome_pure] at h
    obtain ⟨⟨type, found⟩, ht, h⟩ := h
    cases h
    exact .array hc ht
  | case8 pointer s hc =>
    rw [outline_eq, hc] at h
    cases h
    exact .anyMap hc
  | case9 pointer s values hc =>
    simp only [outline_eq, hc, Traced.outcome_bind_eq_ok_iff, Traced.outcome_pure] at h
    obtain ⟨⟨type, found⟩, ht, h⟩ := h
    cases h
    exact .map hc ht
  | case10 pointer s type hc =>
    rw [outline_eq, hc] at h
    cases h
    exact .primitive hc

/-- A schema that has the shape of another component is a union of `null` with a reference to it,
or with a schema that has its shape. -/
theorem sameAs_induction {name other : String} {motive : Pointer → Schema → Prop}
    (reference : ∀ pointer s keyword index target,
      s.category = .nullableOf ⟨keyword, index, .ref target⟩ →
      scope.document.resolveRef name target = .ok other → motive pointer s)
    (inside : ∀ pointer s keyword index inner,
      s.category = .nullableOf ⟨keyword, index, .schema inner⟩ →
      motive (pointer.push (keyword.step index)) inner → motive pointer s)
    {pointer : Pointer} {s : Schema}
    (h : (scope.outline name pointer s).outcome = .ok (.sameAs other)) : motive pointer s := by
  induction pointer, s using outline.induct with
  | case2 pointer s keyword index inner hc ih =>
    rw [outline_eq, hc] at h
    exact inside pointer s keyword index inner hc (ih h)
  | case3 pointer s keyword index target hc =>
    simp only [outline_eq, hc, Traced.outcome_bind_eq_ok_iff, Traced.outcome_lift,
      Traced.outcome_pure] at h
    obtain ⟨component, hr, h⟩ := h
    cases h
    exact reference pointer s keyword index target hc hr
  | case1 pointer s hc => simp [outline_eq, hc] at h
  | case4 pointer s hc => simp [outline_eq, hc, Traced.outcome_map_eq_ok_iff] at h
  | case5 pointer s hc => simp [outline_eq, hc, Traced.outcome_map_eq_ok_iff] at h
  | case6 pointer s hc => simp [outline_eq, hc] at h
  | case7 pointer s items hc => simp [outline_eq, hc, Traced.outcome_map_eq_ok_iff] at h
  | case8 pointer s hc => simp [outline_eq, hc] at h
  | case9 pointer s values hc => simp [outline_eq, hc, Traced.outcome_map_eq_ok_iff] at h
  | case10 pointer s type hc => simp [outline_eq, hc] at h

theorem outline_sameAs {name : String} {pointer : Pointer} {s : Schema} {other : String}
    (h : (scope.outline name pointer s).outcome = .ok (.sameAs other)) :
    scope.document.Canonical other ∧ (scope.outline name pointer s).warnings = [] ∧
      s.category.isNamed = false := by
  refine sameAs_induction (motive := fun pointer s => scope.document.Canonical other ∧
    (scope.outline name pointer s).warnings = [] ∧ s.category.isNamed = false) ?reference ?inside h
  case reference =>
    intro pointer s keyword index target hc hr
    refine ⟨Document.canonical_of_resolveRef hr, ?_, by rw [hc]; rfl⟩
    simp only [outline_eq, hc]
    rw [Traced.bind_of_ok hr]
    rfl
  case inside =>
    rintro pointer s keyword index inner hc ⟨hcanonical, hwarnings, -⟩
    rw [outline_eq, hc]
    exact ⟨hcanonical, hwarnings, rfl⟩

/-- Where a shape and the schemas inside it come from: a merged object, the type of the elements,
or nothing that has a name. -/
inductive ShapeOrigin (scope : Scope) : Shape → List Inline → Prop where
  | object {o : ObjectShape} (sourced : scope.Sourced o) : ShapeOrigin scope (.object o) o.inlines
  | elements {shape : Shape} {context base : String} {node : Node} {pointer : Pointer}
      {type : TypeRef} {inlines : List Inline} (elements : shape = .array type ∨ shape = .map type)
      (typed : (scope.typeNode [] context base node pointer).outcome = .ok (type, inlines))
      (placed : ∀ i ∈ inlines, scope.Placed i) : ShapeOrigin scope shape inlines
  | nameless {shape : Shape} (flat : shape.object? = none)
      (types : ∀ type ∈ shape.types, type.element.named? = none) : ShapeOrigin scope shape []

theorem outline_origin {name : String} {pointer : Pointer} {s : Schema} {shape : Shape}
    {inlines : List Inline} (hp : scope.placeAt pointer = some (.owner name s))
    (h : (scope.outline name pointer s).outcome = .ok (.shape shape inlines)) :
    scope.ShapeOrigin shape inlines := by
  replace h := outlined_of_outline h
  induction h with
  | inside hc _ ih =>
    refine ih ?_
    rw [placeAt_push, hp, Option.bind_some]
    exact childPlace_owner_union (Schema.category_nullableOf hc)
  | object hc ho => exact .object (objectShape_sourced hp ho)
  | array hc ht =>
    refine .elements (.inl rfl) ht (typeNode_placed ht ?_ (steps_push_ne_nil _ _))
    rw [placeAt_push, hp, Option.bind_some, childPlace, Schema.category_array hc]
    rfl
  | map hc ht =>
    refine .elements (.inr rfl) ht (typeNode_placed ht ?_ (steps_push_ne_nil _ _))
    rw [placeAt_push, hp, Option.bind_some, childPlace, Schema.category_map hc]
  | anyArray | anyMap =>
    exact .nameless rfl (by simp [Shape.types, TypeRef.untyped, TypeRef.element, TypeRef.named?])
  | enum | union | primitive => exact .nameless rfl (by simp [Shape.types])

theorem ShapeOrigin.placed {shape : Shape} {inlines : List Inline}
    (h : scope.ShapeOrigin shape inlines) : ∀ i ∈ inlines, scope.Placed i := by
  cases h with
  | object sourced => exact sourced.inlines_placed
  | elements elements typed placed => exact placed
  | nameless flat types => simp

/-- What every visited site satisfies: it stands where the walk finds it, a component at its own
position and an inline schema, which is an enum or an object, deeper inside. -/
structure Grounded (scope : Scope) (site : Site) : Prop where
  place : scope.placeAt site.pointer = some (.owner site.name site.schema)
  component : site.inline = false → site.pointer = .ofComponent site.name
  canonical : site.inline = false → scope.document.Canonical site.name
  inside : site.inline → site.pointer.steps ≠ []
  named : site.inline → site.schema.isNamed
  called : site.inline → ∃ base, site.name = scope.inlineName base site.pointer

theorem grounded_ofComponent {name : String} {s : Schema} (hc : scope.document.Canonical name)
    (h : scope.document.definition? name = some s) : scope.Grounded (.ofComponent name s) where
  place := placeAt_ofComponent h
  component _ := rfl
  canonical _ := hc
  inside h := by cases h
  named h := by cases h
  called h := by cases h

theorem Placed.grounded {i : Inline} (h : scope.Placed i) : scope.Grounded (.ofInline i) where
  place := h.place
  component h := by cases h
  canonical h := by cases h
  inside _ := h.inside
  named _ := h.named
  called _ := h.called

theorem Visits.grounded {site : Site} (h : scope.Visits order site) : scope.Grounded site := by
  induction h with
  | component mem follows definition =>
    exact grounded_ofComponent (Document.canonical_of_followAlias follows) definition
  | same visits outline definition ih =>
    exact grounded_ofComponent (outline_sameAs outline).1 definition
  | inside visits outline mem ih => exact ((outline_origin ih.place outline).placed _ mem).grounded

/-- A position belongs to one site. -/
theorem Grounded.site_eq {a b : Site} (ha : scope.Grounded a) (hb : scope.Grounded b)
    (h : a.pointer = b.pointer) : a = b := by
  have hplace := ha.place
  rw [h, hb.place, Option.some.injEq, Place.owner.injEq] at hplace
  obtain ⟨hn, hs⟩ := hplace
  have hi : a.inline = b.inline := by
    cases hia : a.inline <;> cases hib : b.inline
    · rfl
    · exact absurd (by rw [← h, ha.component hia]; rfl) (hb.inside hib)
    · exact absurd (by rw [h, hb.component hib]; rfl) (ha.inside hia)
    · rfl
  cases a
  cases b
  simp only at h hn hs hi
  rw [h, hn, hs, hi]

/-- Only components share the shape of another one. -/
theorem Grounded.inline_of_sameAs {site : Site} {other : String} (h : scope.Grounded site)
    (ho : (scope.outlineAt site).outcome = .ok (.sameAs other)) : site.inline = false := by
  cases hi : site.inline with
  | false => rfl
  | true =>
    have hn := h.named hi
    have hc := (outline_sameAs ho).2.2
    simp [Schema.isNamed, hc] at hn

theorem ShapeWithin.mono {n m : Nat} {site : Site} {shape : Shape}
    (h : scope.ShapeWithin n site shape) (hle : n ≤ m) : scope.ShapeWithin m site shape := by
  induction h generalizing m with
  | own outline =>
    obtain ⟨m, rfl⟩ : ∃ k, m = k + 1 := ⟨m - 1, by omega⟩
    exact .own outline
  | same outline definition within ih =>
    obtain ⟨m, rfl⟩ : ∃ k, m = k + 1 := ⟨m - 1, by omega⟩
    exact .same outline definition (ih (by omega))

theorem ShapeWithin.unique {n m : Nat} {site : Site} {a b : Shape}
    (ha : scope.ShapeWithin n site a) (hb : scope.ShapeWithin m site b) : a = b := by
  induction ha generalizing m with
  | own outline =>
    cases hb with
    | own outline' =>
      rw [outline] at outline'
      cases outline'
      rfl
    | same outline' => rw [outline] at outline'; cases outline'
  | same outline definition within ih =>
    cases hb with
    | own outline' => rw [outline] at outline'; cases outline'
    | same outline' definition' within' =>
      rw [outline] at outline'
      cases outline'
      rw [definition] at definition'
      cases definition'
      exact ih within'

theorem HasShape.unique {site : Site} {a b : Shape} (ha : scope.HasShape site a)
    (hb : scope.HasShape site b) : a = b := by
  obtain ⟨n, ha⟩ := ha
  obtain ⟨m, hb⟩ := hb
  exact ha.unique hb

/-- A chain of components that is as short as possible never comes back to one of them: those
further on need fewer steps. -/
theorem ShapeWithin.chain {n : Nat} {site : Site} {shape : Shape}
    (h : scope.ShapeWithin n site shape) : ∀ name s, site = .ofComponent name s →
      scope.document.definition? name = some s →
      (∀ m < n, ¬ scope.ShapeWithin m site shape) →
      ∃ names : List String, names.length = n ∧ names.Nodup ∧ ∀ other ∈ names, ∃ t,
        scope.document.definition? other = some t ∧
          scope.ShapeWithin n (.ofComponent other t) shape := by
  induction h with
  | @own n site shape inlines outline =>
    intro name s he hs hmin
    have hn : n = 0 := by
      rcases Nat.eq_zero_or_pos n with hn | hn
      · exact hn
      · exact absurd (ShapeWithin.own outline) (hmin 1 (by omega))
    subst he hn
    refine ⟨[name], rfl, by simp, ?_⟩
    intro other ho
    rw [List.mem_singleton.1 ho]
    exact ⟨s, hs, .own outline⟩
  | @same n site shape next t outline definition within ih =>
    intro name s he hs hmin
    subst he
    have hmin' : ∀ m < n, ¬ scope.ShapeWithin m (.ofComponent next t) shape := by
      intro m hm hw
      exact hmin (m + 1) (by omega) (.same outline definition hw)
    obtain ⟨names, hl, hn, hall⟩ := ih next t rfl definition hmin'
    refine ⟨name :: names, by rw [List.length_cons, hl], ?_, ?_⟩
    · refine List.nodup_cons.2 ⟨?_, hn⟩
      -- a name that came back would have the shape in fewer steps
      intro hm
      obtain ⟨t', ht, hw⟩ := hall name hm
      rw [hs] at ht
      cases ht
      exact hmin n (by omega) hw
    · intro other ho
      rcases List.mem_cons.1 ho with rfl | ho
      · exact ⟨s, hs, .same outline definition within⟩
      · obtain ⟨t', ht, hw⟩ := hall other ho
        exact ⟨t', ht, hw.mono (by omega)⟩

/-- A component has its shape within as many steps as there are components. -/
theorem HasShape.within {name : String} {s : Schema} {shape : Shape}
    (hs : scope.document.definition? name = some s)
    (h : scope.HasShape (.ofComponent name s) shape) :
    scope.ShapeWithin scope.document.names.length (.ofComponent name s) shape := by
  classical
  have hleast := Nat.find_spec h
  obtain ⟨names, hl, hn, hall⟩ := hleast.chain name s rfl hs fun m hm => Nat.find_min h hm
  -- the names of a shortest chain are distinct components
  refine hleast.mono ?_
  rw [← hl]
  refine (hn.subperm ?_).length_le
  intro other ho
  obtain ⟨t, ht, -⟩ := hall other ho
  exact Document.mem_names_of_definition ht

end Scope

end SchemaModel
