import SchemaModel.Proofs.Computed
import SchemaModel.Proofs.Build

/-!
Which default literals inhabit the types of their properties. A literal made from a declared
default always does. A property that is fixed to the key of a discriminator keeps its own type,
so its literal inhabits that type exactly if the type fits the discriminator
(`Document.build_literal_inhabits_iff`).
-/

namespace SchemaModel

def SchemaKind.enum? : SchemaKind → Option EnumDescriptor
  | .enum e => some e
  | _ => none

/-- The enum of a name. -/
def TypeModel.enum? (m : TypeModel) (name : String) : Option EnumDescriptor :=
  (m.schemas.find? name).bind fun d => d.kind.enum?

/-- The types that the keys of a discriminator inhabit: its enum, or else those of plain text. -/
def Discrimination.Fits (d : Discrimination) (type : TypeRef) : Prop :=
  match d.descriptor.enumType with
  | some name => type = .named name
  | none => type = .primitive .string ∨ type = .primitive .email ∨ type = .untyped

variable {enums : String → Option EnumDescriptor}

theorem Literal.string_inhabits_iff {value : String} {type : TypeRef} :
    (Literal.string value).Inhabits enums type ↔
      type = .primitive .string ∨ type = .primitive .email ∨ type = .untyped := by
  constructor
  · intro h
    cases h with
    | string => exact .inl rfl
    | email => exact .inr (.inl rfl)
    | untyped scalar => exact .inr (.inr rfl)
  · rintro (rfl | rfl | rfl)
    · exact .string
    · exact .email
    · exact .untyped rfl

theorem Literal.enumMember_inhabits_iff {name : String} {e : EnumDescriptor} {m : EnumMember}
    (he : enums name = some e) (hm : m ∈ e.members) {type : TypeRef} :
    (Literal.enumMember name m.constant).Inhabits enums type ↔ type = .named name := by
  constructor
  · exact Literal.Inhabits.type_eq
  · rintro rfl
    exact .enumMember he hm

/-- The keys of an enum discriminator stand for members of its enum. -/
theorem mem_discriminatorKeys {mapping : List (String × String)} {e : EnumDescriptor}
    {subtype : String} {key : DiscriminatorKey}
    (h : key ∈ discriminatorKeys mapping (some e) subtype) :
    ∃ value, ∃ m ∈ e.members, key = .enumKey value m.constant := by
  unfold discriminatorKeys at h
  obtain ⟨value, -, hk⟩ := List.mem_filterMap.1 h
  obtain ⟨m, hm, rfl⟩ := Option.map_eq_some_iff.1 hk
  exact ⟨value, m, List.mem_of_find?_eq_some hm, rfl⟩

theorem DiscriminatorKey.literal_none (key : DiscriminatorKey) :
    key.literal none = .string key.value := by
  cases key with
  | enumKey value constant => rfl
  | stringKey value => rfl

section

variable [Libraries]

namespace Graph

variable {g : Graph} {config : Config} {hierarchy : Hierarchy} {m : TypeModel}

theorem Builds.enum?_eq (hb : g.Builds config hierarchy m) (hg : g.Intact) : m.enum? = g.enum? := by
  funext name
  unfold TypeModel.enum? enum?
  cases hs : g.schemas.find? name with
  | none =>
    cases hd : m.schemas.find? name with
    | none => rfl
    | some d =>
      obtain ⟨s, hs', -⟩ := (hb.find?_model hg).1 hd
      rw [hs] at hs'
      cases hs'
  | some s =>
    obtain ⟨d, hd, hdesc⟩ := hb.has_model hg hs
    obtain ⟨properties, -, rfl⟩ := Classifier.descriptor_eq_ok hdesc
    simp only [hd, Option.bind_some, Classifier.kindOf]
    cases hshape : s.shape with
    | enum e => rfl
    | primitive type => rfl
    | array items => rfl
    | map values => rfl
    | object o =>
      dsimp only
      split
      · rfl
      · split <;> rfl

omit [Libraries] in
/-- The literal of a key of a discriminator inhabits the types that fit the discriminator. -/
theorem Intact.key_literal_inhabits_iff (hg : g.Intact) (hh : g.hierarchy = .ok hierarchy)
    {owner name : String} {d : Discrimination} (hd : hierarchy.discrimination? owner = some d)
    {key : DiscriminatorKey} (hk : key ∈ d.keysFor name) {type : TypeRef} :
    (key.literal d.descriptor.enumType).Inhabits g.enum? type ↔ d.Fits type := by
  obtain ⟨henum, hmembers⟩ := enum_of_discrimination? hh hd
  unfold Discrimination.Fits
  cases hfound : g.enumOf? d.declaration.type with
  | none =>
    simp only [hfound, Option.map_none] at henum
    rw [henum, DiscriminatorKey.literal_none]
    exact Literal.string_inhabits_iff
  | some found =>
    obtain ⟨other, e⟩ := found
    simp only [hfound, Option.map_some] at henum hmembers
    rw [Discrimination.keysFor, hmembers] at hk
    obtain ⟨value, member, hm, rfl⟩ := mem_discriminatorKeys hk
    have hother := hg.canonical_eq (hg.has_enumType hh hd henum).2
    have he := (enumOf?_eq_some hfound).2
    rw [hother] at he
    rw [henum]
    exact Literal.enumMember_inhabits_iff he hm

/-- The literal of a property inhabits its type, unless the property is fixed to a discriminator
that the type does not fit. -/
theorem PropertyOrigin.literal_inhabits_iff (hg : g.Intact) (hh : g.hierarchy = .ok hierarchy)
    {name : String} {x : PropertyDescriptor}
    (hx : PropertyOrigin ⟨g, hierarchy, config⟩ name x) {literal : Literal}
    (hl : x.literal? = some literal) :
    literal.Inhabits g.enum? x.type ↔ (x.isDiscriminator → ∀ d key,
      Classifier.Fixed ⟨g, hierarchy, config⟩ name x.key d key → d.Fits x.type) := by
  cases hx with
  | captured object additional kind type discriminator empty =>
    rw [empty] at hl
    cases hl
    rw [type, discriminator]
    exact ⟨fun _ h => Bool.noConfusion h, fun _ => .emptyMap⟩
  | @declared p owned key kind type discriminator origin =>
    rw [key]
    -- a declared default was made for this type, a key was not
    rcases origin literal hl with ⟨hc, hn⟩ | ⟨d, k, hf, rfl⟩
    · constructor
      · intro _ _ d k hf
        exact absurd hf (hn d k)
      · intro _
        rw [type]
        refine coerce_inhabits ?_ hc
        intro other ho
        exact hg.canonical_eq (hg.owned_type owned (by rw [ho]; rfl)).has
    · obtain ⟨ha, hk⟩ := hf
      obtain ⟨-, owner, -, hd⟩ := Classifier.ancestorDiscrimination?_eq_some ha
      rw [hg.key_literal_inhabits_iff hh hd (hk ▸ List.mem_singleton_self k)]
      constructor
      · intro hfits _ d' k' hf'
        have hdd : d = d' := Option.some.inj (ha.symm.trans hf'.1)
        exact hdd ▸ hfits
      · intro h
        exact h (discriminator (Option.isSome_of_eq_some ha)) d k ⟨ha, hk⟩

end Graph

/-- In a model that is built the literal of a property inhabits its type exactly if the property
is not fixed to the key of a discriminator that the type does not fit. -/
theorem Document.build_literal_inhabits_iff {d : Document} {config : Config} {b : Built}
    (h : d.build config = .ok b) :
    ∃ g hierarchy, d.resolve d.names = .ok g ∧ g.hierarchy = .ok hierarchy ∧
      ∀ s ∈ b.model.schemas.values, ∀ x ∈ s.properties, ∀ literal, x.literal? = some literal →
        (literal.Inhabits b.model.enum? x.type ↔ (x.isDiscriminator → ∀ disc key,
          Classifier.Fixed ⟨g, hierarchy, config⟩ s.name x.key disc key → disc.Fits x.type)) := by
  obtain ⟨g, hierarchy, hg, hintact, hb⟩ := build_eq_ok h
  refine ⟨g, hierarchy, hg, hb.hierarchy_eq, ?_⟩
  intro s hs x hx literal hl
  obtain ⟨name, hf⟩ := NameMap.mem_values_iff.1 hs
  obtain ⟨r, -, hdesc⟩ := (hb.find?_model hintact).1 hf
  obtain ⟨properties, hclassify, rfl⟩ := Classifier.descriptor_eq_ok hdesc
  have horigin := hb.propertyOrigin hintact hclassify hx
  rw [hb.enum?_eq hintact]
  exact horigin.literal_inhabits_iff hintact hb.hierarchy_eq hl

end

/-- A supertype whose discriminator is a whole number, and a subtype of it. -/
def integerTag : Document :=
  ⟨"3.0.3", default,
    [("P", .schema { Schema.empty with
        type := some (.single .object)
        properties := [("k", .schema { Schema.empty with type := some (.single .integer) })]
        discriminator := some ⟨"k", []⟩ }),
      ("S", .schema { Schema.empty with allOf := [.ref "#/components/schemas/P"] })], by decide⟩

theorem build_literal_inhabits_iff_integer_tag : ∃ b, integerTag.build .standard = .ok b ∧
    ∃ g hierarchy, integerTag.resolve integerTag.names = .ok g ∧ g.hierarchy = .ok hierarchy ∧
      ∀ s ∈ b.model.schemas.values, ∀ x ∈ s.properties, ∀ literal, x.literal? = some literal →
        (literal.Inhabits b.model.enum? x.type ↔ (x.isDiscriminator → ∀ disc key,
          Classifier.Fixed ⟨g, hierarchy, .standard⟩ s.name x.key disc key →
            disc.Fits x.type)) := by
  have hok : (integerTag.build .standard).toOption.isSome = true := by cbv
  obtain ⟨b, hb⟩ := exists_eq_ok_of_isSome hok
  exact ⟨b, hb, Document.build_literal_inhabits_iff hb⟩

/-- The discriminator of the subtype is fixed to a text, which is not a whole number. -/
theorem integerTag_not_inhabits : ∃ b s x, integerTag.build .standard = .ok b ∧
    s ∈ b.model.schemas.values ∧ x ∈ s.properties ∧ x.type = .primitive .int32 ∧
      x.literal? = some (.string "S") ∧ ¬(Literal.string "S").Inhabits b.model.enum? x.type := by
  have hrun : ((integerTag.build .standard).toOption.bind fun b =>
      (b.model.schemas.find? "S").bind fun s => (s.property? "k").map fun x =>
        (x.type, x.literal?)) = some (.primitive .int32, some (.string "S")) := by cbv
  obtain ⟨b, hb, hrun⟩ := toOption_bind_eq_some_iff.1 hrun
  obtain ⟨s, hs, hrun⟩ := Option.bind_eq_some_iff.1 hrun
  obtain ⟨x, hx, hrun⟩ := Option.map_eq_some_iff.1 hrun
  obtain ⟨htype, hl⟩ := Prod.mk.inj hrun
  refine ⟨b, s, x, hb, NameMap.mem_values_iff.2 ⟨"S", hs⟩, List.mem_of_find?_eq_some hx, htype,
    hl, ?_⟩
  rw [htype]
  intro h
  cases h

end SchemaModel
