import SchemaModel.Build
import SchemaModel.Proofs.Hierarchy.Parents

/-!
Where the properties of a descriptor come from. Every visible property is declared by an object of
the graph (`mem_visible`); a description keeps its key, kind and type, and its default comes from
the declaration or from the key of a discriminator (`Described.defaulted`).
-/

namespace SchemaModel

theorem Shape.eq_of_object? {shape : Shape} {o : ObjectShape} (h : shape.object? = some o) :
    shape = .object o := by
  cases shape with
  | object o' => cases h; rfl
  | primitive type => cases h
  | enum e => cases h
  | array items => cases h
  | map values => cases h

namespace Graph

/-- Some object of the graph declares the property. -/
def Owns (g : Graph) (p : ResolvedProperty) : Prop :=
  ∃ name o, g.object? name = some o ∧ p ∈ o.properties

/-- The properties that an object of the graph declares; other schemas declare none. -/
def ownProperties (g : Graph) (name : String) : List ResolvedProperty :=
  match g.object? name with
  | some o => o.properties
  | none => []

theorem owns_of_mem_ownProperties {g : Graph} {name : String} {p : ResolvedProperty}
    (h : p ∈ g.ownProperties name) : g.Owns p := by
  unfold ownProperties at h
  split at h
  · rename_i o ho
    exact ⟨name, o, ho, h⟩
  · cases h

theorem owns_of_property? {g : Graph} {name key : String} {p : ResolvedProperty}
    (h : g.property? name key = some p) : g.Owns p := by
  obtain ⟨o, ho, hp⟩ := Option.bind_eq_some_iff.1 h
  exact ⟨name, o, ho, List.mem_of_find?_eq_some hp⟩

theorem object?_eq_some {g : Graph} {name : String} {o : ObjectShape}
    (h : g.object? name = some o) :
    ∃ s, g.schemas.find? (g.canonical name) = some s ∧ s.shape = .object o := by
  obtain ⟨s, hs, ho⟩ := Option.bind_eq_some_iff.1 h
  exact ⟨s, hs, Shape.eq_of_object? ho⟩

end Graph

theorem DefaultValue.forProperty_literal? {found : Option Literal} {isRequired mergePatch : Bool}
    {value : DefaultValue} {literal : Literal}
    (hv : forProperty found isRequired mergePatch = some value)
    (hl : value.literal? = some literal) : found = some literal := by
  unfold forProperty at hv
  split at hv
  · cases hv
  · split at hv <;> cases hv <;> cases hl <;> rfl

/-- One key is chosen; several are left open with a warning, under the lenient policy only. -/
inductive DiscriminatorPolicy.Chooses (policy : DiscriminatorPolicy) (schema property : String)
    (keys : List DiscriminatorKey) (value : DiscriminatorValue) (noted : List Warning) : Prop where
  | one {key : DiscriminatorKey} (only : keys = [key]) (fixed : value = .fixed key)
  | several (many : 2 ≤ keys.length) (lenient : policy = .lenient)
      (settable : value = .settable keys)
      (warned : .severalValues schema property
        (", ".intercalate (keys.map DiscriminatorKey.value)) ∈ noted)

theorem DiscriminatorPolicy.evaluate_eq_ok {policy : DiscriminatorPolicy}
    {schema property : String} {keys : List DiscriminatorKey} {value : DiscriminatorValue}
    (h : (policy.evaluate schema property keys).outcome = .ok value) :
    policy.Chooses schema property keys value (policy.evaluate schema property keys).warnings := by
  unfold evaluate at h ⊢
  match keys with
  | [] => cases h
  | [key] =>
    cases h
    exact .one rfl rfl
  | first :: second :: rest =>
    cases policy with
    | strict => cases h
    | lenient =>
      cases h
      exact .several (by simp) rfl rfl List.mem_cons_self

namespace Classifier

variable {c : Classifier}

/-- What a supertype takes over from its subtypes: the declaration of its discriminator, if nothing
of that key is visible on it. -/
def borrowed (c : Classifier) (name : String) (inherited : Visible) : List ResolvedProperty :=
  match c.hierarchy.discrimination? name with
  | some d =>
    if d.declaredOnSuper || (c.graph.property? name d.property).isSome ||
        inherited.properties.any (fun p => p.key == d.property) then []
    else [d.declaration]
  | none => []

/-- Inherited properties that are not declared again come first, own declarations last. -/
theorem extend_properties (c : Classifier) (name : String) (inherited : Visible) :
    (c.extend name inherited).properties =
      inherited.properties.filter (fun p => (c.graph.property? name p.key).isNone) ++
        c.borrowed name inherited ++ c.graph.ownProperties name := by
  have hany : ∀ key, c.graph.property? name key = none →
      (inherited.properties.filter fun p => (c.graph.property? name p.key).isNone).any
        (fun p => p.key == key) = inherited.properties.any (fun p => p.key == key) := by
    intro key hk
    rw [Bool.eq_iff_iff, List.any_eq_true, List.any_eq_true]
    constructor
    · rintro ⟨p, hp, he⟩
      exact ⟨p, List.mem_of_mem_filter hp, he⟩
    · rintro ⟨p, hp, he⟩
      refine ⟨p, List.mem_filter.2 ⟨hp, ?_⟩, he⟩
      rw [beq_iff_eq.1 he, hk, Option.isNone_none]
  have hhides : ∀ d : Discrimination, (d.declaredOnSuper ||
      (c.graph.property? name d.property).isSome ||
        (inherited.properties.filter fun p => (c.graph.property? name p.key).isNone).any
          fun p => p.key == d.property) = (d.declaredOnSuper ||
      (c.graph.property? name d.property).isSome ||
        inherited.properties.any fun p => p.key == d.property) := by
    intro d
    cases hk : c.graph.property? name d.property with
    | none => rw [hany d.property hk]
    | some p => simp
  have hkept : ∀ found : Option ResolvedProperty, (!found.isSome) = found.isNone := by simp
  cases ho : c.graph.object? name with
  | none =>
    have hp : ∀ key, c.graph.property? name key = none := by
      intro key
      rw [Graph.property?, ho, Option.bind_none]
    simp only [hp] at hhides
    simp only [extend, borrowed, Graph.ownProperties, ho, hp, ← hhides, List.append_nil]
    rfl
  | some o =>
    have hp : ∀ key, c.graph.property? name key = o.property? key := by
      intro key
      rw [Graph.property?, ho, Option.bind_some]
    simp only [hp] at hhides
    cases hd : c.hierarchy.discrimination? name <;>
      simp only [extend, borrowed, Graph.ownProperties, ho, hd, hp, ← hhides, hkept]

theorem mem_borrowed {name : String} {inherited : Visible} {p : ResolvedProperty}
    (h : p ∈ c.borrowed name inherited) :
    ∃ d, c.hierarchy.discrimination? name = some d ∧ p = d.declaration ∧
      c.graph.property? name d.property = none ∧ d.property ∉ inherited.keys := by
  unfold borrowed at h
  split at h
  · rename_i d hd
    split at h
    · cases h
    · rename_i hn
      simp only [Bool.or_eq_true, not_or, Bool.not_eq_true, Option.isSome_eq_false_iff,
        Option.isNone_iff_eq_none, List.any_eq_false, beq_iff_eq] at hn
      obtain ⟨⟨-, hnone⟩, hkeys⟩ := hn
      refine ⟨d, hd, List.mem_singleton.1 h, hnone, ?_⟩
      intro hm
      obtain ⟨q, hq, he⟩ := List.mem_map.1 hm
      exact hkeys q hq he
  · cases h

theorem mem_extend {name : String} {inherited : Visible} {p : ResolvedProperty}
    (hd : ∀ name d, c.hierarchy.discrimination? name = some d → c.graph.Owns d.declaration)
    (h : p ∈ (c.extend name inherited).properties) : p ∈ inherited.properties ∨ c.graph.Owns p := by
  rw [extend_properties, List.mem_append, List.mem_append] at h
  rcases h with (h | h) | h
  · exact .inl (List.mem_of_mem_filter h)
  · obtain ⟨d, hfound, rfl, -⟩ := mem_borrowed h
    exact .inr (hd name d hfound)
  · exact .inr (Graph.owns_of_mem_ownProperties h)

theorem mem_visibleAlong
    (hd : ∀ name d, c.hierarchy.discrimination? name = some d → c.graph.Owns d.declaration)
    {line : List String} {p : ResolvedProperty} (h : p ∈ (c.visibleAlong line).properties) :
    c.graph.Owns p := by
  induction line with
  | nil => cases h
  | cons name rest ih =>
    rcases mem_extend hd h with h | h
    · exact ih h
    · exact h

/-- The keys that the discriminator of a supertype has for a schema. -/
def ancestorKeys (c : Classifier) (name key : String) : List DiscriminatorKey :=
  match c.ancestorDiscrimination? name key with
  | some d => d.keysFor name
  | none => []

/-- The discriminator of a supertype has one key for the schema, to which the property of the
schema is fixed. -/
def Fixed (c : Classifier) (name property : String) (d : Discrimination)
    (key : DiscriminatorKey) : Prop :=
  c.ancestorDiscrimination? name property = some d ∧ d.keysFor name = [key]

theorem fixed_iff {name property : String} {d : Discrimination} {key : DiscriminatorKey} :
    c.Fixed name property d key ↔ c.ancestorDiscrimination? name property = some d ∧
      c.ancestorKeys name property = [key] := by
  unfold Fixed ancestorKeys
  constructor
  · rintro ⟨ha, hk⟩
    rw [ha]
    exact ⟨rfl, hk⟩
  · rintro ⟨ha, hk⟩
    rw [ha] at hk
    exact ⟨ha, hk⟩

/-- The property is the discriminator of the schema itself. -/
def isOwn (c : Classifier) (name key : String) : Bool :=
  match c.hierarchy.discrimination? name with
  | some d => d.property == key
  | none => false

theorem isOwn_iff {name key : String} :
    c.isOwn name key ↔ ∃ d, c.hierarchy.discrimination? name = some d ∧ d.property = key := by
  unfold isOwn
  cases c.hierarchy.discrimination? name with
  | none => simp
  | some d => simp

/-- The keys that are visible on the supertype of a schema. -/
def inheritedKeys (c : Classifier) (name : String) : List String :=
  match c.hierarchy.parent? name with
  | some parent => (c.visible parent).keys
  | none => []

variable [Libraries]

/-- `x` describes the visible property `p` of a schema, and what it warns about is noted. -/
structure Described (c : Classifier) (name : String) (noted : List Warning) (p : ResolvedProperty)
    (x : PropertyDescriptor) : Prop where
  key : x.key = p.key
  kind : x.kind = p.kind
  type : x.type = p.type
  inherited : x.isInherited = (c.inheritedKeys name).contains p.key
  discriminator : x.isDiscriminator =
    (c.isOwn name p.key || (c.ancestorDiscrimination? name p.key).isSome)
  mappings : x.mappings = c.ancestorKeys name p.key
  modifier : x.modifier = modifier (c.hierarchy.role name) (c.isOwn name p.key) x.isInherited
    (c.ancestorDiscrimination? name p.key).isSome
  wrapping : x.wrapping =
    if c.config.mergePatch && !x.isRequired && !x.isDiscriminator then .triState else .plain
  default : (c.propertyDefault name p x.isRequired (x.modifier = .abstract)
    (c.ancestorDiscrimination? name p.key) x.mappings).outcome = .ok (x.default, x.hasDefault)
  warned : ∀ w ∈ (c.propertyDefault name p x.isRequired (x.modifier = .abstract)
    (c.ancestorDiscrimination? name p.key) x.mappings).warnings, w ∈ noted
  mandatory : x.mandatory = isMandatory c.config.mergePatch x.isRequired x.isNullable x.hasDefault
  checks : x.checks = c.propertyChecks (c.hierarchy.role name) p x.mandatory

theorem Described.mono {name : String} {noted noted' : List Warning} {p : ResolvedProperty}
    {x : PropertyDescriptor} (hx : c.Described name noted p x) (h : ∀ w ∈ noted, w ∈ noted') :
    c.Described name noted' p x :=
  { hx with warned := fun w hw => h w (hx.warned w hw) }

theorem describe_eq_ok {name : String} {p : ResolvedProperty} {x : PropertyDescriptor}
    (h : (c.describe name (c.visible name) (c.inheritedKeys name) p).outcome = .ok x) :
    c.Described name (c.describe name (c.visible name) (c.inheritedKeys name) p).warnings p x := by
  unfold describe at h ⊢
  simp only [Traced.outcome_bind_eq_ok_iff, Traced.outcome_pure] at h
  obtain ⟨⟨default, hasDefault⟩, hdef, h⟩ := h
  cases h
  refine ⟨rfl, rfl, rfl, rfl, rfl, rfl, rfl, rfl, hdef, ?_, rfl, rfl⟩
  intro w hw
  exact (Traced.mem_warnings_bind hdef).2 (.inl hw)

omit [Libraries] in
theorem ancestorDiscrimination?_eq_some {name key : String} {d : Discrimination}
    (h : c.ancestorDiscrimination? name key = some d) : d.property = key ∧
      ∃ owner ∈ c.hierarchy.ancestors name, c.hierarchy.discrimination? owner = some d := by
  refine ⟨by simpa using List.find?_some h, ?_⟩
  exact List.mem_filterMap.1 (List.mem_of_find?_eq_some h)

/-- The capture of undeclared properties, where an object admits any. -/
def captures (c : Classifier) (o : ObjectShape) : List PropertyDescriptor :=
  match o.additional with
  | some a => [captureDescriptor c.config.mergePatch a.type]
  | none => []

/-- The properties of a descriptor are those that are visible, and the capture of others. -/
theorem classify_eq_ok {name : String} {o : ObjectShape} (ho : c.graph.object? name = some o)
    {properties : List PropertyDescriptor} (h : (c.classify name).outcome = .ok properties) :
    ∃ described, ((c.visible name).properties.mapM fun p =>
        (c.describe name (c.visible name) (c.inheritedKeys name) p).outcome) = .ok described ∧
      properties = described ++ c.captures o := by
  unfold classify at h
  simp only [ho, Traced.outcome_bind_eq_ok_iff, Traced.outcome_pure] at h
  obtain ⟨described, hdesc, h⟩ := h
  cases h
  rw [Traced.outcome_mapM] at hdesc
  exact ⟨described, hdesc, rfl⟩

theorem mem_classify {name : String} {properties : List PropertyDescriptor}
    (h : (c.classify name).outcome = .ok properties) {x : PropertyDescriptor}
    (hx : x ∈ properties) :
    (∃ p ∈ (c.visible name).properties,
      (c.describe name (c.visible name) (c.inheritedKeys name) p).outcome = .ok x) ∨
    ∃ o a, c.graph.object? name = some o ∧ o.additional = some a ∧
      x = captureDescriptor c.config.mergePatch a.type := by
  cases ho : c.graph.object? name with
  | none =>
    simp only [classify, ho] at h
    cases h
    cases hx
  | some o =>
    obtain ⟨described, hdesc, rfl⟩ := classify_eq_ok ho h
    rcases List.mem_append.1 hx with hx | hx
    · exact .inl ((mem_of_mapM_eq_ok hdesc x).1 hx)
    · cases ha : o.additional with
      | none => simp [captures, ha] at hx
      | some a =>
        simp only [captures, ha, List.mem_singleton] at hx
        exact .inr ⟨o, a, rfl, ha, hx⟩

theorem mem_warnings_classify {name : String} {o : ObjectShape}
    (ho : c.graph.object? name = some o) {properties : List PropertyDescriptor}
    (h : (c.classify name).outcome = .ok properties) {p : ResolvedProperty}
    (hp : p ∈ (c.visible name).properties) {w : Warning}
    (hw : w ∈ (c.describe name (c.visible name) (c.inheritedKeys name) p).warnings) :
    w ∈ (c.classify name).warnings := by
  unfold classify at h ⊢
  simp only [ho] at h ⊢
  obtain ⟨described, hdesc, -⟩ := Traced.outcome_bind_eq_ok_iff.1 h
  exact (Traced.mem_warnings_bind hdesc).2 (.inl (Traced.mem_warnings_mapM hdesc hp hw))

/-- The keys of a discriminator leave open what the property stands for, and this is warned
about. -/
structure Undecided (policy : DiscriminatorPolicy) (noted : List Warning) (schema : String)
    (x : PropertyDescriptor) : Prop where
  many : 2 ≤ x.mappings.length
  lenient : policy = .lenient
  warned : .severalValues schema x.key
    (", ".intercalate (x.mappings.map DiscriminatorKey.value)) ∈ noted

/-- How a property comes by its default: an abstract one has none, a discriminator with one key is
fixed to it, and any other takes what is declared. -/
inductive Defaulted (c : Classifier) (name : String) (noted : List Warning) (p : ResolvedProperty)
    (x : PropertyDescriptor) : Prop where
  | abstract (modifier : x.modifier = .abstract) (none : x.default = none)
      (lacks : x.hasDefault = false)
  | fixed {d : Discrimination} {key : DiscriminatorKey} (concrete : x.modifier ≠ .abstract)
      (ancestor : c.ancestorDiscrimination? name x.key = some d) (only : x.mappings = [key])
      (literal : x.default = some (.literal (key.literal d.descriptor.enumType)))
      (has : x.hasDefault)
  | declared {found : Option Literal} (concrete : x.modifier ≠ .abstract)
      (undecided : ∀ d, c.ancestorDiscrimination? name x.key = some d →
        Undecided c.config.policy noted name x)
      (coerced : (c.graph.coerce name p).outcome = .ok found)
      (value : x.default = DefaultValue.forProperty found x.isRequired c.config.mergePatch)
      (has : x.hasDefault = found.isSome)

theorem declaredDefault_eq_ok {name : String} {p : ResolvedProperty} {isRequired : Bool}
    {default : Option DefaultValue} {hasDefault : Bool}
    (h : (c.declaredDefault name p isRequired).outcome = .ok (default, hasDefault)) :
    ∃ found, (c.graph.coerce name p).outcome = .ok found ∧
      default = DefaultValue.forProperty found isRequired c.config.mergePatch ∧
      hasDefault = found.isSome := by
  unfold declaredDefault at h
  simp only [Traced.outcome_bind_eq_ok_iff, Traced.outcome_pure] at h
  obtain ⟨found, hfound, h⟩ := h
  cases h
  exact ⟨found, hfound, rfl, rfl⟩

theorem Described.defaulted {name : String} {noted : List Warning} {p : ResolvedProperty}
    {x : PropertyDescriptor} (hx : c.Described name noted p x) :
    c.Defaulted name noted p x := by
  have hdefault := hx.default
  have hwarned := hx.warned
  by_cases hm : x.modifier = .abstract
  · simp only [propertyDefault, hm, decide_true, if_true, Traced.outcome_pure] at hdefault
    obtain ⟨hvalue, hhas⟩ := Prod.mk.inj (Except.ok.inj hdefault)
    exact .abstract hm hvalue.symm hhas.symm
  · simp only [propertyDefault, hm, decide_false, Bool.false_eq_true, if_false, ← hx.key]
      at hdefault hwarned
    cases ha : c.ancestorDiscrimination? name x.key with
    | none =>
      simp only [ha] at hdefault
      obtain ⟨found, hfound, hvalue, hhas⟩ := declaredDefault_eq_ok hdefault
      exact .declared hm (fun d hd => by rw [ha] at hd; cases hd) hfound hvalue hhas
    | some d =>
      simp only [ha] at hdefault hwarned
      obtain ⟨chosen, hchosen, hdefault⟩ := Traced.outcome_bind_eq_ok_iff.1 hdefault
      simp only [Traced.mem_warnings_bind hchosen] at hwarned
      cases DiscriminatorPolicy.evaluate_eq_ok hchosen with
      | one only fixed =>
        subst fixed
        obtain ⟨hvalue, hhas⟩ := Prod.mk.inj (Except.ok.inj hdefault)
        exact .fixed hm ha only hvalue.symm hhas.symm
      -- several keys leave the property as it is declared
      | several many lenient settable warned =>
        subst settable
        obtain ⟨found, hfound, hvalue, hhas⟩ := declaredDefault_eq_ok hdefault
        exact .declared hm (fun _ _ => ⟨many, lenient, hwarned _ (.inl warned)⟩) hfound hvalue hhas

/-- How the property of a subtype is settled by the keys of a discriminator: it is fixed to the
only one, and under the lenient policy several are warned about. -/
structure Settled (policy : DiscriminatorPolicy) (noted : List Warning) (schema : String)
    (enumType : Option String) (x : PropertyDescriptor) : Prop where
  nonempty : x.mappings ≠ []
  fixed : ∀ key, x.mappings = [key] →
    x.hasDefault ∧ x.default = some (.literal (key.literal enumType))
  several : 2 ≤ x.mappings.length → policy = .lenient ∧
    .severalValues schema x.key (", ".intercalate (x.mappings.map DiscriminatorKey.value)) ∈ noted

theorem Described.settled {name : String} {noted : List Warning} {p : ResolvedProperty}
    {x : PropertyDescriptor} (hx : c.Described name noted p x) (hm : x.modifier ≠ .abstract)
    {d : Discrimination} (hd : c.ancestorDiscrimination? name p.key = some d) :
    Settled c.config.policy noted name d.descriptor.enumType x := by
  rw [← hx.key] at hd
  cases hx.defaulted with
  | abstract modifier none lacks => exact absurd modifier hm
  | fixed concrete ancestor only literal has =>
    rw [hd, Option.some.injEq] at ancestor
    subst ancestor
    refine ⟨by simp [only], ?_, by simp [only]⟩
    intro other ho
    rw [only, List.singleton_inj] at ho
    exact ⟨has, ho ▸ literal⟩
  | declared concrete undecided coerced value has =>
    obtain ⟨many, lenient, warned⟩ := undecided d hd
    refine ⟨?_, ?_, fun _ => ⟨lenient, warned⟩⟩
    · intro hn
      simp [hn] at many
    · intro key hk
      simp [hk] at many

end Classifier

end SchemaModel
