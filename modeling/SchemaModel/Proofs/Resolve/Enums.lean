import SchemaModel.Proofs.EnumMembers
import SchemaModel.Proofs.Resolve.Integrity
import SchemaModel.Proofs.Resolve.Reference
import SchemaModel.Proofs.Resolve.Spelled

/-!
Which schemas are enums, told from the document (`Document.IsEnum`): those that list values, and
unions of `null` with one that is an enum, in place or by a reference. These are the schemas that
have the shape of an enum (`HasShape.isEnum_iff`), and a component is typed by the name of an enum
exactly if it is one (`Complete.componentType_isEnum_iff`). The members of an enum have distinct
constants (`Document.resolve_enums_distinct`).
-/

namespace SchemaModel

theorem Schema.category_eq_enum_iff {s : Schema} : s.category = .enum ↔ s.hasEnumValues := by
  constructor
  · intro h
    unfold category plainCategory at h
    split at h
    · assumption
    · split at h
      · cases h
      · split at h
        · split at h <;> cases h
        · split at h
          · cases h
          · split at h <;> cases h
  · intro h
    rw [category, if_pos h]

namespace Document

variable {d : Document} {s : Schema}

/-- The schema lists values, or what stands beside `null` in it does. -/
inductive IsEnum (d : Document) : Schema → Prop where
  | values {s : Schema} (values : s.hasEnumValues) : IsEnum d s
  | inside {s inner : Schema} {keyword : UnionKeyword} {index : Nat}
      (union : s.category = .nullableOf ⟨keyword, index, .schema inner⟩)
      (enum : IsEnum d inner) : IsEnum d s
  | reference {s t : Schema} {keyword : UnionKeyword} {index : Nat} {context target name : String}
      (union : s.category = .nullableOf ⟨keyword, index, .ref target⟩)
      (leads : d.resolveRef context target = .ok name)
      (definition : d.definition? name = some t) (enum : IsEnum d t) : IsEnum d s

theorem IsEnum.category (h : d.IsEnum s) :
    s.category = .enum ∨ ∃ u, s.category = .nullableOf u := by
  cases h with
  | values values => exact .inl (Schema.category_eq_enum_iff.2 values)
  | inside union enum => exact .inr ⟨_, union⟩
  | reference union leads definition enum => exact .inr ⟨_, union⟩

theorem not_isEnum (henum : s.category ≠ .enum) (hunion : ∀ u, s.category ≠ .nullableOf u) :
    ¬d.IsEnum s := by
  intro h
  rcases h.category with hc | ⟨u, hc⟩
  · exact henum hc
  · exact hunion u hc

theorem isEnum_iff_inside {keyword : UnionKeyword} {index : Nat} {inner : Schema}
    (hc : s.category = .nullableOf ⟨keyword, index, .schema inner⟩) :
    d.IsEnum s ↔ d.IsEnum inner := by
  refine ⟨fun h => ?_, .inside hc⟩
  cases h with
  | values values =>
    rw [Schema.category_eq_enum_iff.2 values] at hc
    cases hc
  | inside union enum =>
    rw [hc] at union
    cases union
    exact enum
  | reference union leads definition enum =>
    rw [hc] at union
    cases union

theorem isEnum_iff_reference {keyword : UnionKeyword} {index : Nat} {context target name : String}
    {t : Schema} (hc : s.category = .nullableOf ⟨keyword, index, .ref target⟩)
    (hr : d.resolveRef context target = .ok name) (ht : d.definition? name = some t) :
    d.IsEnum s ↔ d.IsEnum t := by
  refine ⟨fun h => ?_, .reference hc hr ht⟩
  cases h with
  | values values =>
    rw [Schema.category_eq_enum_iff.2 values] at hc
    cases hc
  | inside union enum =>
    rw [hc] at union
    cases union
  | reference union leads definition enum =>
    rw [hc] at union
    cases union
    have hsame : d.resolveRef context target = .ok _ := resolveRef_context leads
    rw [hr, Except.ok.injEq] at hsame
    subst hsame
    rw [ht, Option.some.injEq] at definition
    rwa [definition]

/-- What a reference reads of a component has values only if the component is an enum. -/
theorem isEnum_of_read (h : s.read.hasEnumValues) : d.IsEnum s := by
  unfold Schema.read at h
  split at h
  · rename_i keyword index inner hu
    rcases Schema.category_of_nullableUnion hu with hc | hc
    · exact .values (Schema.category_eq_enum_iff.1 hc)
    · exact .inside hc (.values h)
  · exact .values h

end Document

variable [Libraries]

namespace Scope

variable {scope : Scope}

/-- A schema with a shape of its own has that of an enum exactly if it is one. -/
theorem isEnum_iff_of_outline {name : String} {pointer : Pointer} {s : Schema} {shape : Shape}
    {inlines : List Inline}
    (h : (scope.outline name pointer s).outcome = .ok (.shape shape inlines)) :
    shape.enum?.isSome ↔ scope.document.IsEnum s := by
  replace h := outlined_of_outline h
  induction h with
  | inside hc _ ih =>
    rw [Document.isEnum_iff_inside hc]
    exact ih
  | enum hc => exact ⟨fun _ => .values (Schema.category_eq_enum_iff.1 hc), fun _ => rfl⟩
  | object hc | array hc | map hc | anyArray hc | anyMap hc | union hc | primitive hc =>
    simp [Shape.enum?, Document.not_isEnum, hc]

/-- A schema with the shape of another component is an enum exactly if the component is. -/
theorem isEnum_iff_of_sameAs {name other : String} {pointer : Pointer} {s t : Schema}
    (h : (scope.outline name pointer s).outcome = .ok (.sameAs other))
    (ht : scope.document.definition? other = some t) :
    scope.document.IsEnum s ↔ scope.document.IsEnum t := by
  refine sameAs_induction (motive := fun _ s => scope.document.IsEnum s ↔ scope.document.IsEnum t)
    ?reference ?inside h
  case reference =>
    intro pointer s keyword index target hc hr
    exact Document.isEnum_iff_reference hc hr ht
  case inside =>
    intro pointer s keyword index inner hc ih
    rwa [Document.isEnum_iff_inside hc]

/-- The enums of a document are the schemas that have the shape of one. -/
theorem HasShape.isEnum_iff {site : Site} {shape : Shape} (h : scope.HasShape site shape) :
    shape.enum?.isSome ↔ scope.document.IsEnum site.schema := by
  obtain ⟨n, h⟩ := h
  induction h with
  | own outline => exact isEnum_iff_of_outline outline
  | same outline definition within ih => rw [isEnum_iff_of_sameAs outline definition, ih]; rfl

end Scope

/-- The name of an enum. -/
def Graph.IsEnum (g : Graph) (name : String) : Prop :=
  ∃ s, g.schemas.find? name = some s ∧ s.shape.enum?.isSome

/-- The name of an object. -/
def Graph.IsObject (g : Graph) (name : String) : Prop :=
  ∃ s, g.schemas.find? name = some s ∧ s.shape.object?.isSome

namespace Resolver

variable {scope : Scope} {order : List String} {r : Resolver}
  (hr : Complete scope order r) (hn : r.inlineRenames = [])
  (hall : ∀ name ∈ scope.document.names, name ∈ order)

include hr hn

theorem Complete.isEnum_iff {site : Site} (hv : scope.Visits order site) :
    r.toGraph.IsEnum site.name ↔ scope.document.IsEnum site.schema := by
  obtain ⟨shape, hshape, hf⟩ := hr.has_of_visits hn hv
  rw [Graph.IsEnum, hf, ← hshape.isEnum_iff]
  simp [Site.resolved]

include hall

/-- The type of a component is the name of an enum exactly if the component is one. -/
theorem Complete.componentType_isEnum_iff {name : String} {s : Schema} {type : TypeRef}
    (hc : scope.document.Canonical name) (hs : scope.document.definition? name = some s)
    (h : (scope.componentType [] name).outcome = .ok type) :
    (∃ other, type = .named other ∧ r.toGraph.IsEnum other) ↔ scope.document.IsEnum s := by
  have hvisits : ∀ {other t}, scope.document.Canonical other →
      scope.document.definition? other = some t → scope.Visits order (.ofComponent other t) :=
    fun hc ht => .component (hall _ hc.mem_names) (hc.followAlias _) ht
  obtain ⟨shape, hshape, -⟩ := hr.has_of_visits hn (hvisits hc hs)
  -- whoever gives its name to the shape has it
  obtain ⟨owner, t, hcanonical, ht, hsame, htype, -⟩ := hshape.exists_componentType hc hs
  rw [htype, Except.ok.injEq] at h
  subst h
  have hgraph : r.toGraph.IsEnum owner ↔ shape.enum?.isSome :=
    (hr.isEnum_iff hn (hvisits hcanonical ht)).trans hsame.isEnum_iff.symm
  have hdocument : shape.enum?.isSome ↔ scope.document.IsEnum s := hshape.isEnum_iff
  rw [← hdocument]
  cases shape with
  | enum e => simpa [Shape.typeAs] using hgraph
  | object o => simpa [Shape.typeAs] using hgraph
  | primitive type => simp [Shape.typeAs, Shape.enum?]
  | array items => simp [Shape.typeAs, Shape.enum?]
  | map values => simp [Shape.typeAs, Shape.enum?]

end Resolver

/-- No two members of an enum have one constant. -/
def EnumDescriptor.Distinct (e : EnumDescriptor) : Prop := (e.members.map EnumMember.constant).Nodup

theorem Schema.enumDescriptor_distinct (s : Schema) : s.enumDescriptor.Distinct := by
  exact s.enumDescriptor_lists.distinct

namespace Scope

variable {scope : Scope}

/-- The enum that is the shape of a schema is made from the values that a schema lists. -/
theorem enum_of_outline {name : String} {pointer : Pointer} {s : Schema} {e : EnumDescriptor}
    {inlines : List Inline}
    (h : (scope.outline name pointer s).outcome = .ok (.shape (.enum e) inlines)) :
    ∃ t : Schema, e = t.enumDescriptor := by
  generalize hshape : Shape.enum e = shape at h
  replace h := outlined_of_outline h
  induction h with
  | inside hc _ ih => exact ih hshape
  | @enum pointer s hc =>
    cases hshape
    exact ⟨s, rfl⟩
  | object | array | map | anyArray | anyMap | union | primitive => cases hshape

end Scope

/-- The constants of an enum of a document tell its members apart. -/
theorem Document.resolve_enums_distinct {d : Document} {order : List String} {g : Graph}
    (h : d.resolve order = .ok g) {name : String} {s : Resolved} {e : EnumDescriptor}
    (hf : g.schemas.find? name = some s) (he : s.shape.enum? = some e) : e.Distinct := by
  obtain ⟨renames, r, -, hr, hn, rfl⟩ := resolve_eq_ok h
  obtain ⟨site, shape, hv, hshape, -, rfl⟩ := (hr.find?_toGraph hn).1 hf
  obtain ⟨site', inlines, -, houtline⟩ := hshape.own hv
  cases shape with
  | enum other =>
    obtain rfl : other = e := Option.some.inj he
    obtain ⟨t, rfl⟩ := Scope.enum_of_outline houtline
    exact t.enumDescriptor_distinct
  | _ => cases he

end SchemaModel
