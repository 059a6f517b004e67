import SchemaModel.Proofs.Computed
import SchemaModel.Proofs.Build

/-!
Integrity of a model: every name that a descriptor mentions is that of a schema of the model, and
a name within a type is that of an enum or object. What stands inside an object of the resolved
graph is found in the model under its own name and at its own position.
-/

namespace SchemaModel

/-- Enums and objects. -/
def SchemaKind.isNamed : SchemaKind → Bool
  | .enum _ => true
  | .objectSingle => true
  | .objectSuper _ => true
  | .objectSub => true
  | _ => false

def SchemaKind.types : SchemaKind → List TypeRef
  | .arrayOf items => [items]
  | .mapOf values => [values]
  | _ => []

def Literal.enumType? : Literal → Option String
  | .enumMember name _ => some name
  | _ => none

def DiscriminatorDescriptor.names (x : DiscriminatorDescriptor) : List String :=
  x.subtypeKeys.keys ++ x.enumType.toList

namespace SchemaDescriptor

def types (d : SchemaDescriptor) : List TypeRef :=
  d.kind.types ++ d.properties.map PropertyDescriptor.type

/-- The names within the types of a descriptor. -/
def typeNames (d : SchemaDescriptor) : List String :=
  d.types.filterMap fun type => type.element.named?

/-- All schema names that a descriptor mentions. -/
def names (d : SchemaDescriptor) : List String :=
  d.typeNames ++ d.properties.filterMap (fun p => p.kind.target?) ++ d.supertype.toList ++
    d.subtypes.keys ++ d.discriminator?.toList.flatMap DiscriminatorDescriptor.names ++
    d.properties.filterMap fun p => p.literal?.bind Literal.enumType?

theorem kind_of_discriminator? {d : SchemaDescriptor} {x : DiscriminatorDescriptor}
    (h : d.discriminator? = some x) : d.kind = .objectSuper x := by
  unfold discriminator? at h
  split at h
  · rename_i hk
    cases h
    exact hk
  · cases h

end SchemaDescriptor

structure TypeModel.Intact (m : TypeModel) : Prop where
  names : ∀ d ∈ m.schemas.values, ∀ name ∈ d.names, name ∈ m.schemas.keys
  typeNames : ∀ d ∈ m.schemas.values, ∀ name ∈ d.typeNames, ∃ other,
    m.schemas.find? name = some other ∧ other.kind.isNamed
  aliases : ∀ name ∈ m.aliases.values, name ∈ m.schemas.keys

section

variable [Libraries]

namespace Graph

variable {g : Graph} {config : Config} {hierarchy : Hierarchy} {m : TypeModel}

section Model

variable (hb : g.Builds config hierarchy m) (hg : g.Intact)

section

include hg

omit [Libraries] in
theorem Intact.kind_types {s : Resolved} {name other : String}
    (hs : g.schemas.find? name = some s) {type : TypeRef}
    (ht : type ∈ (Classifier.kindOf ⟨g, hierarchy, config⟩ s).types)
    (hn : type.element.named? = some other) : g.HasNamed other := by
  refine hg.types name s hs type ?_ other hn
  simp only [Classifier.kindOf] at ht
  cases hshape : s.shape with
  | array items => simpa [hshape, SchemaKind.types, Shape.types] using ht
  | map values => simpa [hshape, SchemaKind.types, Shape.types] using ht
  | primitive type => simp [hshape, SchemaKind.types] at ht
  | enum e => simp [hshape, SchemaKind.types] at ht
  | object o =>
    simp only [hshape] at ht
    split at ht
    · cases ht
    · split at ht <;> cases ht

theorem PropertyOrigin.hasNamed_type {name other : String} {x : PropertyDescriptor}
    (hx : PropertyOrigin ⟨g, hierarchy, config⟩ name x)
    (hn : x.type.element.named? = some other) : g.HasNamed other := by
  cases hx with
  | declared owned key kind type discriminator literal => exact hg.owned_type owned (type ▸ hn)
  | @captured o a object additional kind type discriminator literal =>
    obtain ⟨s, hs, hshape⟩ := object?_eq_some object
    refine hg.types _ s hs a.type ?_ other ?_
    · rw [hshape]
      exact List.mem_append_right _ (by simp [additional])
    · rw [type] at hn
      exact hn

theorem PropertyOrigin.hasNamed_target {name other : String} {x : PropertyDescriptor}
    (hx : PropertyOrigin ⟨g, hierarchy, config⟩ name x)
    (hn : x.kind.target? = some other) : g.HasNamed other := by
  cases hx with
  | declared owned key kind type discriminator literal =>
    have htype := hg.owned_kind owned (kind ▸ hn)
    exact hg.owned_type owned (by rw [htype]; rfl)
  | captured object additional kind type discriminator literal =>
    rw [kind] at hn
    cases hn

end

include hb hg

theorem Builds.isNamed {name : String} (h : g.HasNamed name) :
    ∃ d, m.schemas.find? name = some d ∧ d.kind.isNamed := by
  obtain ⟨s, hs, hnamed⟩ := h
  obtain ⟨d, hd, hdesc⟩ := hb.has_model hg hs
  refine ⟨d, hd, ?_⟩
  obtain ⟨properties, -, rfl⟩ := Classifier.descriptor_eq_ok hdesc
  simp only [Classifier.kindOf]
  cases hshape : s.shape with
  | enum e => rfl
  | object o =>
    simp only
    split
    · rfl
    · split <;> rfl
  | primitive type => simp [hshape, Shape.isNamed] at hnamed
  | array items => simp [hshape, Shape.isNamed] at hnamed
  | map values => simp [hshape, Shape.isNamed] at hnamed

/-- The enum of a default is that of the property's type, or that of the discriminator whose key
the default is. -/
theorem Builds.has_default {name other constant : String} {x : PropertyDescriptor}
    (hx : PropertyOrigin ⟨g, hierarchy, config⟩ name x)
    (hl : x.literal? = some (.enumMember other constant)) : g.Has other := by
  cases hx with
  | @declared p owned key kind type discriminator literal =>
    rcases literal _ hl with ⟨hc, -⟩ | ⟨d, key, ⟨ha, -⟩, hkey⟩
    · have hcanonical : ∀ name, p.type = .named name → g.canonical name = name := by
        intro name hp
        exact hg.canonical_eq (hg.owned_type owned (by rw [hp]; rfl)).has
      have htype := (coerce_inhabits hcanonical hc).type_eq
      exact (hg.owned_type owned (by rw [htype]; rfl)).has
    · obtain ⟨-, owner, -, hd⟩ := Classifier.ancestorDiscrimination?_eq_some ha
      exact (hg.has_enumType hb.hierarchy_eq hd (key_literal_enumMember hkey.symm)).2
  | captured object additional kind type discriminator literal =>
    rw [literal] at hl
    cases hl

theorem Builds.has_discriminator {s : Resolved} {x : DiscriminatorDescriptor}
    (hk : Classifier.kindOf ⟨g, hierarchy, config⟩ s = .objectSuper x) :
    ∀ other ∈ x.names, g.Has other := by
  obtain ⟨d, hd, rfl⟩ : ∃ d, hierarchy.discrimination? s.name = some d ∧ x = d.descriptor := by
    simp only [Classifier.kindOf] at hk
    split at hk
    · cases hk
    · cases hk
    · cases hk
    · cases hk
    · split at hk
      · rename_i d hd
        cases hk
        exact ⟨d, hd, rfl⟩
      · split at hk <;> cases hk
  intro other ho
  rcases List.mem_append.1 ho with ho | ho
  · obtain ⟨o, discriminator, hm, hdisc⟩ :=
      discriminate_of_discrimination? hb.hierarchy_eq hd
    obtain ⟨mapping, heq, -⟩ := discriminate_eq_ok hdisc
    rw [heq, NameMap.keys_map] at ho
    have hp := (mem_childrenOf hb.hierarchy_eq).1 ho
    exact ((candidate_of_parent? hb.hierarchy_eq hp).has hg).1
  · exact (hg.has_enumType hb.hierarchy_eq hd (by simpa using ho)).2

/-- The names in the types of a descriptor, be it the elements of an array or map or the type of a
property, are those of enums and objects. -/
theorem Builds.typeNames {d : SchemaDescriptor} (hd : d ∈ m.schemas.values) :
    ∀ other ∈ d.typeNames, g.HasNamed other := by
  intro other ho
  obtain ⟨name, hf⟩ := NameMap.mem_values_iff.1 hd
  obtain ⟨s, hs, hdesc⟩ := (hb.find?_model hg).1 hf
  obtain ⟨properties, hclassify, rfl⟩ := Classifier.descriptor_eq_ok hdesc
  obtain ⟨type, htype, hn⟩ := List.mem_filterMap.1 ho
  rcases List.mem_append.1 htype with htype | htype
  · exact hg.kind_types hs htype hn
  · obtain ⟨x, hx, rfl⟩ := List.mem_map.1 htype
    exact (hb.propertyOrigin hg hclassify hx).hasNamed_type hg hn

theorem Builds.names {d : SchemaDescriptor} (hd : d ∈ m.schemas.values) :
    ∀ other ∈ d.names, g.Has other := by
  intro other ho
  have htypes := hb.typeNames hg hd other
  obtain ⟨name, hf⟩ := NameMap.mem_values_iff.1 hd
  obtain ⟨s, hs, hdesc⟩ := (hb.find?_model hg).1 hf
  obtain ⟨properties, hclassify, rfl⟩ := Classifier.descriptor_eq_ok hdesc
  have horigin : ∀ x ∈ properties, PropertyOrigin ⟨g, hierarchy, config⟩ s.name x :=
    fun x hx => hb.propertyOrigin hg hclassify hx
  -- types, targets, supertype, subtypes, discriminator and defaults
  simp only [SchemaDescriptor.names, List.mem_append] at ho
  rcases ho with ((((ho | ho) | ho) | ho) | ho) | ho
  · exact (htypes ho).has
  · obtain ⟨x, hx, hn⟩ := List.mem_filterMap.1 ho
    exact ((horigin x hx).hasNamed_target hg hn).has
  · have hp : hierarchy.parent? s.name = some other := by simpa using ho
    exact ((candidate_of_parent? hb.hierarchy_eq hp).has hg).2
  · have hp := (mem_childrenOf hb.hierarchy_eq).1 ho
    exact ((candidate_of_parent? hb.hierarchy_eq hp).has hg).1
  · obtain ⟨x, hx, hn⟩ := List.mem_flatMap.1 ho
    have hk := SchemaDescriptor.kind_of_discriminator? (Option.mem_toList.1 hx)
    exact hb.has_discriminator hg hk other hn
  · obtain ⟨x, hx, hn⟩ := List.mem_filterMap.1 ho
    obtain ⟨literal, hl, hn⟩ := Option.bind_eq_some_iff.1 hn
    cases literal with
    | enumMember type constant =>
      cases hn
      exact hb.has_default hg (horigin x hx) hl
    | _ => cases hn

theorem Builds.model_intact : m.Intact where
  names d hd other ho := hb.mem_keys hg (hb.names hg hd other ho)
  typeNames d hd other ho := hb.isNamed hg (hb.typeNames hg hd other ho)
  aliases other ho := by
    obtain ⟨name, ha⟩ := NameMap.mem_values_iff.1 ho
    rw [hb.aliases] at ha
    exact hb.mem_keys hg (hg.target name other ha)

/-- What stands inside an object is found under its own name, at its own position. -/
theorem Builds.find?_inline {name : String} {s : Resolved} {o : ObjectShape}
    (hs : g.schemas.find? name = some s) (ho : s.shape = .object o) {i : Inline}
    (hi : i ∈ o.inlines) : ∃ d, m.schemas.find? i.name = some d ∧ d.pointer = i.pointer.text ∧
      d.inline ∧ d.kind.isNamed := by
  obtain ⟨t, ht, hp, hinline, hnamed⟩ := hg.inside name s o hs ho i hi
  obtain ⟨d, hd, hdesc⟩ := hb.has_model hg ht
  obtain ⟨d', hd', hkind⟩ := hb.isNamed hg ⟨t, ht, hnamed⟩
  rw [hd, Option.some.injEq] at hd'
  subst hd'
  obtain ⟨properties, -, rfl⟩ := Classifier.descriptor_eq_ok hdesc
  exact ⟨_, hd, by rw [hp], hinline, hkind⟩

end Model

end Graph

/-- A model that is built is intact, and every schema that stands inside an object of the graph it
is built from is found in it. -/
theorem Document.build_intact {d : Document} {config : Config} {b : Built}
    (h : d.build config = .ok b) : b.model.Intact ∧ ∃ g, d.resolve d.names = .ok g ∧
      ∀ name s o, g.schemas.find? name = some s → s.shape = .object o → ∀ i ∈ o.inlines, ∃ e,
        b.model.schemas.find? i.name = some e ∧ e.pointer = i.pointer.text ∧ e.inline ∧
          e.kind.isNamed := by
  obtain ⟨g, hierarchy, hg, hintact, hb⟩ := build_eq_ok h
  refine ⟨hb.model_intact hintact, g, hg, ?_⟩
  intro name s o hs ho i hi
  exact hb.find?_inline hintact hs ho hi

end

/-- One component, with an inline enum that has a default. -/
def inlineEnum : Document :=
  let k : Schema := { Schema.empty with
    type := some (.single .string), enum := [.str "s"], default := some (.str "s") }
  ⟨"3.0.3", default, [("B", .schema { Schema.empty with
    type := some (.single .object), properties := [("k", .schema k)] })], by decide⟩

theorem build_intact_inline_enum : ∃ b, inlineEnum.build .standard = .ok b ∧ b.model.Intact ∧
    ∃ g, inlineEnum.resolve inlineEnum.names = .ok g ∧
      (∀ name s o, g.schemas.find? name = some s → s.shape = .object o → ∀ i ∈ o.inlines, ∃ e,
        b.model.schemas.find? i.name = some e ∧ e.pointer = i.pointer.text ∧ e.inline ∧
          e.kind.isNamed) ∧
      ∃ s o i e, g.schemas.find? "B" = some s ∧ s.shape = .object o ∧ i ∈ o.inlines ∧
        i.name = "BK" ∧ b.model.schemas.find? "BK" = some e ∧ e.inline ∧
        e.pointer = "#/components/schemas/B/properties/k" := by
  have hok : (inlineEnum.build .standard).toOption.isSome = true := by cbv
  obtain ⟨b, hb⟩ := exists_eq_ok_of_isSome hok
  obtain ⟨hintact, g, hg, hinside⟩ := Document.build_intact hb
  have hrun : ((inlineEnum.resolve inlineEnum.names).toOption.bind fun g =>
      (g.schemas.find? "B").bind fun s => s.shape.object?.bind fun o => o.inlines.head?.map fun i =>
        (i.name, i.pointer.text)) = some ("BK", "#/components/schemas/B/properties/k") := by cbv
  obtain ⟨g', hg', hrun⟩ := toOption_bind_eq_some_iff.1 hrun
  rw [hg, Except.ok.injEq] at hg'
  subst hg'
  obtain ⟨s, hs, hrun⟩ := Option.bind_eq_some_iff.1 hrun
  obtain ⟨o, ho, hrun⟩ := Option.bind_eq_some_iff.1 hrun
  obtain ⟨i, hi, hrun⟩ := Option.map_eq_some_iff.1 hrun
  obtain ⟨hname, hpointer⟩ := Prod.mk.inj hrun
  have hshape : s.shape = .object o := Shape.eq_of_object? ho
  have hmem : i ∈ o.inlines := List.mem_of_head? hi
  obtain ⟨e, he, hpe, hinline, -⟩ := hinside "B" s o hs hshape i hmem
  exact ⟨b, hb, hintact, g, hg, hinside, s, o, i, e, hs, hshape, hmem, hname, hname ▸ he, hinline,
    hpe.trans hpointer⟩

end SchemaModel
