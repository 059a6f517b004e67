import SchemaModel.Proofs.Computed
import SchemaModel.Proofs.Inheritance

/-!
When a constructor that is made from a model can be called without null going where it must not.
Whether a property is mandatory, what its default is and whether null is checked for are read off
the same flags, so they agree (`Document.build_nullSafe`).
-/

namespace SchemaModel

namespace PropertyDescriptor

/-- A discriminator that has only one key, whose literal is its default. -/
def IsFixed (p : PropertyDescriptor) : Prop :=
  p.isDiscriminator ∧ ∃ key enumType, p.mappings = [key] ∧
    p.default = some (.literal (DiscriminatorKey.literal key enumType))

/-- What a default says about null. Without merge patch an optional property that is not abstract
can be left out: it has a default, null only if it need not be there, and a literal if it must. A
required property has no default unless it is a discriminator that is fixed. In a merge patch
a property is mandatory if null is not among its values. -/
structure NullSafe (config : Config) (p : PropertyDescriptor) : Prop where
  optional : config.mergePatch = false → p.isRequired = false → p.modifier ≠ .abstract →
    p.default.isSome
  null : config.mergePatch = false → p.isRequired = false → p.default = some .null →
    p.mandatory = false
  mandatory : config.mergePatch = false → p.isRequired = false → p.mandatory →
    ∃ value, p.default = some (.literal value)
  required : p.isRequired → p.default = none ∨ p.IsFixed
  patched : config.mergePatch → (p.mandatory ↔ p.isNullable = false)

end PropertyDescriptor

/-- Null is checked for at the end of a hierarchy, where a property is mandatory. A supertype
checks nothing. -/
structure SchemaDescriptor.ChecksNull (s : SchemaDescriptor) : Prop where
  declared : s.isSuper = false → ∀ p ∈ s.declared, .notNull ∈ p.checks ↔ p.mandatory
  super : s.isSuper → ∀ p ∈ s.properties, p.checks = []

section

variable {isRequired isNullable hasDefault : Bool}

@[simp] theorem isMandatory_patched :
    isMandatory true isRequired isNullable hasDefault = !isNullable := rfl

@[simp] theorem isMandatory_optional :
    isMandatory false false isNullable hasDefault = hasDefault := by
  simp [isMandatory]

end

namespace DefaultValue

theorem forProperty_required (found : Option Literal) (mergePatch : Bool) :
    forProperty found true mergePatch = none := rfl

theorem forProperty_optional (found : Option Literal) :
    forProperty found false false = some (found.elim .null .literal) := by
  cases found <;> rfl

end DefaultValue

/-- The kind of a property never asks for a check of null. -/
theorem PropertyKind.notNull_notMem_checks (kind : PropertyKind) : .notNull ∉ kind.checks := by
  cases kind with
  | field constraints =>
    simp only [checks, List.mem_append, Option.mem_toList, Option.map_eq_some_iff, not_or]
    refine ⟨⟨⟨?_, ?_⟩, ?_⟩, ?_⟩
    · simp
    · split <;> simp
    · simp
    · simp
  | collection constraints =>
    simp only [checks]
    split <;> simp
  | objectRef target => exact List.not_mem_nil
  | objectInlined target => exact List.not_mem_nil
  | map => exact List.not_mem_nil
  | additionalCapture => exact List.not_mem_nil

section

variable [Libraries]

namespace Classifier

variable {c : Classifier} {name : String} {noted : List Warning} {p : ResolvedProperty}
  {x : PropertyDescriptor}

omit [Libraries] in
theorem propertyChecks_of_isSuper {role : Role} (hr : role.isSuper) (p : ResolvedProperty)
    (mandatory : Bool) : c.propertyChecks role p mandatory = [] := by
  cases role with
  | super | intermediate => rfl
  | single | sub => cases hr

omit [Libraries] in
theorem notNull_mem_propertyChecks {role : Role} (hr : role.isSuper = false)
    (p : ResolvedProperty) (mandatory : Bool) :
    .notNull ∈ c.propertyChecks role p mandatory ↔ mandatory := by
  have hchecks : c.propertyChecks role p mandatory =
      (if mandatory then [.notNull] else []) ++ p.kind.checks ++
        if c.graph.isComplex p.type then [.valid] else [] := by
    cases role with
    | super | intermediate => cases hr
    | single | sub => rfl
  have hkind := p.kind.notNull_notMem_checks
  rw [hchecks, List.mem_append, List.mem_append]
  cases mandatory <;> cases c.graph.isComplex p.type <;> simp [hkind]

/-- Without merge patch an optional property has a literal as its default, or null where there is no
literal. One that is abstract has none. -/
theorem Defaulted.of_optional (hx : c.Defaulted name noted p x)
    (hpatch : c.config.mergePatch = false) (hoptional : x.isRequired = false) :
    (x.modifier = .abstract ∧ x.default = none ∧ x.hasDefault = false) ∨
      (∃ value, x.default = some (.literal value) ∧ x.hasDefault) ∨
        x.default = some .null ∧ x.hasDefault = false := by
  cases hx with
  | abstract modifier none lacks => exact .inl ⟨modifier, none, lacks⟩
  | fixed concrete ancestor only literal has => exact .inr (.inl ⟨_, literal, has⟩)
  | @declared found concrete undecided coerced value has =>
    rw [hoptional, hpatch, DefaultValue.forProperty_optional] at value
    cases found with
    | none => exact .inr (.inr ⟨value, has⟩)
    | some literal => exact .inr (.inl ⟨literal, value, has⟩)

theorem Described.default_of_required (hx : c.Described name noted p x) (hrequired : x.isRequired) :
    x.default = none ∨ x.IsFixed := by
  cases hx.defaulted with
  | abstract modifier none lacks => exact .inl none
  | @fixed d key concrete ancestor only literal has =>
    refine .inr ⟨?_, key, d.descriptor.enumType, only, literal⟩
    rw [hx.discriminator, ← hx.key, ancestor, Option.isSome_some, Bool.or_true]
  | declared concrete undecided coerced value has =>
    rw [hrequired, DefaultValue.forProperty_required] at value
    exact .inl value

theorem Described.nullSafe (hx : c.Described name noted p x) : x.NullSafe c.config := by
  have hmandatory : c.config.mergePatch = false → x.isRequired = false →
      x.mandatory = x.hasDefault := by
    intro hpatch hoptional
    rw [hx.mandatory, hpatch, hoptional, isMandatory_optional]
  refine ⟨?_, ?_, ?_, hx.default_of_required, ?_⟩
  · intro hpatch hoptional hconcrete
    rcases hx.defaulted.of_optional hpatch hoptional with ⟨hm, -⟩ | ⟨value, hv, -⟩ | ⟨hv, -⟩
    · exact absurd hm hconcrete
    · rw [hv, Option.isSome_some]
    · rw [hv, Option.isSome_some]
  · intro hpatch hoptional hnull
    rw [hmandatory hpatch hoptional]
    rcases hx.defaulted.of_optional hpatch hoptional with
      ⟨-, -, hlacks⟩ | ⟨value, hv, -⟩ | ⟨-, hlacks⟩
    · exact hlacks
    · rw [hv] at hnull
      cases hnull
    · exact hlacks
  · intro hpatch hoptional hm
    rw [hmandatory hpatch hoptional] at hm
    rcases hx.defaulted.of_optional hpatch hoptional with
      ⟨-, -, hlacks⟩ | ⟨value, hv, -⟩ | ⟨-, hlacks⟩
    · rw [hlacks] at hm
      cases hm
    · exact ⟨value, hv⟩
    · rw [hlacks] at hm
      cases hm
  · intro hpatch
    rw [hx.mandatory, hpatch, isMandatory_patched, Bool.not_eq_true']

end Classifier

omit [Libraries] in
theorem captureDescriptor_nullSafe (config : Config) (values : TypeRef) :
    (captureDescriptor config.mergePatch values).NullSafe config where
  optional _ _ _ := rfl
  null _ _ hnull := by cases hnull
  mandatory _ _ _ := ⟨.emptyMap, rfl⟩
  required h := by cases h
  patched h := by simp [captureDescriptor, h]

section

variable {c : Classifier} {noted : List Warning} {s : SchemaDescriptor} (hs : Describes c noted s)

include hs

theorem Describes.isSuper_eq : s.isSuper = (c.hierarchy.role s.name).isSuper := by
  rw [SchemaDescriptor.isSuper, hs.discriminator, Option.isSome_map, Hierarchy.isSuper_role]

theorem Describes.nullSafe {x : PropertyDescriptor} (hx : x ∈ s.properties) :
    x.NullSafe c.config := by
  rcases hs.described_or_capture hx with ⟨p, hp⟩ | ⟨values, rfl⟩
  · exact hp.nullSafe
  · exact captureDescriptor_nullSafe c.config values

theorem Describes.checksNull : s.ChecksNull where
  declared hsuper x hx := by
    obtain ⟨-, p, -, hp⟩ := hs.declared x hx
    rw [hs.isSuper_eq] at hsuper
    rw [hp.checks, Classifier.notNull_mem_propertyChecks hsuper]
  super hsuper x hx := by
    rw [hs.isSuper_eq] at hsuper
    rcases hs.described_or_capture hx with ⟨p, hp⟩ | ⟨values, rfl⟩
    · rw [hp.checks, Classifier.propertyChecks_of_isSuper hsuper]
    · rfl

end

/-- In a model that is built every property, captures included, agrees with its flags on null, and
null is checked for exactly where a property is mandatory and not that of a supertype. -/
theorem Document.build_nullSafe {d : Document} {config : Config} {b : Built}
    (h : d.build config = .ok b) : ∀ s ∈ b.model.schemas.values,
      s.ChecksNull ∧ ∀ p ∈ s.properties, p.NullSafe config := by
  obtain ⟨g, hierarchy, -, hm⟩ := build_models h
  intro s hs
  have hdesc := hm.describes_of_mem hs
  exact ⟨hdesc.checksNull, fun p hp => hdesc.nullSafe hp⟩

end

/-- A required discriminator that is fixed below, beside a property that is nullable and the capture
of others. -/
def fixedBelow : Document :=
  ⟨"3.0.3", default,
    [("P", .schema { Schema.empty with
        type := some (.single .object)
        required := ["k"]
        properties := [("k", .schema { Schema.empty with type := some (.single .string) })]
        discriminator := some ⟨"k", []⟩ }),
      ("S", .schema { Schema.empty with
        allOf := [.ref "#/components/schemas/P"]
        properties := [("n", .schema { Schema.empty with
          type := some (.single .string), nullable := some true })]
        additional := some (.flag true) })], by decide⟩

theorem build_nullSafe_fixed_below : ∃ b, fixedBelow.build .standard = .ok b ∧
    (∀ s ∈ b.model.schemas.values, s.ChecksNull ∧ ∀ p ∈ s.properties, p.NullSafe .standard) ∧
    ∃ super s fixed free, b.model.schemas.find? "P" = some super ∧
      (∀ p ∈ super.properties, p.checks = []) ∧ b.model.schemas.find? "S" = some s ∧
      s.property? "k" = some fixed ∧ fixed.isRequired ∧ fixed.IsFixed ∧ fixed.mandatory ∧
      .notNull ∈ fixed.checks ∧
      s.property? "n" = some free ∧ free.default = some .null ∧ free.mandatory = false := by
  have hrun : ((fixedBelow.build .standard).toOption.bind fun b =>
      (b.model.schemas.find? "P").bind fun super => (b.model.schemas.find? "S").bind fun s =>
        (s.property? "k").bind fun fixed => (s.property? "n").map fun free =>
          (super.isSuper, s.isSuper, (fixed.isRequired, fixed.default.isSome, fixed.mandatory),
            (free.isRequired, free.modifier, free.default))) =
      some (true, false, (true, true, true), (false, .final, some .null)) := by cbv
  obtain ⟨b, hb, hrun⟩ := toOption_bind_eq_some_iff.1 hrun
  obtain ⟨super, hsuper, hrun⟩ := Option.bind_eq_some_iff.1 hrun
  obtain ⟨s, hs, hrun⟩ := Option.bind_eq_some_iff.1 hrun
  obtain ⟨fixed, hfixed, hrun⟩ := Option.bind_eq_some_iff.1 hrun
  obtain ⟨free, hfree, hrun⟩ := Option.map_eq_some_iff.1 hrun
  simp only [Prod.mk.injEq] at hrun
  obtain ⟨hsupers, hends, ⟨hrequired, hdefault, hmandatory⟩, hoptional, -, hnull⟩ := hrun
  have hall := Document.build_nullSafe hb
  obtain ⟨hsafe, -⟩ := hall super (NameMap.mem_values_iff.2 ⟨"P", hsuper⟩)
  obtain ⟨hchecks, hproperties⟩ := hall s (NameMap.mem_values_iff.2 ⟨"S", hs⟩)
  have hfixed' := (SchemaDescriptor.mem_of_property? hfixed).1
  have hfree' := (SchemaDescriptor.mem_of_property? hfree).1
  have hisFixed : fixed.IsFixed := by
    refine ((hproperties fixed (List.mem_of_mem_filter hfixed')).required hrequired).resolve_left ?_
    intro hnone
    rw [hnone] at hdefault
    cases hdefault
  have hfreeSafe := hproperties free (List.mem_of_mem_filter hfree')
  exact ⟨b, hb, hall, super, s, fixed, free, hsuper, hsafe.super hsupers, hs, hfixed, hrequired,
    hisFixed, hmandatory, (hchecks.declared hends fixed hfixed').2 hmandatory, hfree, hnull,
    hfreeSafe.null rfl hoptional hnull⟩

end SchemaModel
