import SchemaModel.Proofs.Computed
import SchemaModel.Proofs.Dispatch

/-!
The wrapping of a property and its default. A property that is wrapped always has a default in one
of the forms of `JsonNullable`, and without merge patch there is neither. The other way round such
a default belongs to a wrapped property unless it is that of a discriminator with several keys: it
is never wrapped, but takes the default of an optional property
(`Document.build_wraps_default_iff`).
-/

namespace SchemaModel

/-- A value that only a wrapped property can hold. -/
def DefaultValue.isWrapped : DefaultValue → Bool
  | present _ => true
  | undefined => true
  | _ => false

theorem DefaultValue.forProperty_isWrapped (found : Option Literal) (isRequired mergePatch : Bool) :
    (forProperty found isRequired mergePatch).any isWrapped = (mergePatch && !isRequired) := by
  cases isRequired <;> cases mergePatch <;> cases found <;> rfl

namespace PropertyDescriptor

def hasWrappedDefault (p : PropertyDescriptor) : Bool := p.default.any DefaultValue.isWrapped

/-- A discriminator that may be left out and has no key to be fixed to, since it has several. -/
structure LeftToSet (p : PropertyDescriptor) : Prop where
  optional : p.isRequired = false
  concrete : p.modifier ≠ .abstract
  several : 2 ≤ p.mappings.length

end PropertyDescriptor

section

variable [Libraries]

namespace Classifier

variable {c : Classifier} {name : String} {noted : List Warning} {p : ResolvedProperty}
  {x : PropertyDescriptor}

theorem Described.wrapping_iff (hx : c.Described name noted p x) :
    x.wrapping = .triState ↔
      c.config.mergePatch ∧ x.isRequired = false ∧ x.isDiscriminator = false := by
  rw [hx.wrapping]
  cases c.config.mergePatch <;> cases x.isRequired <;> cases x.isDiscriminator <;> decide

theorem Described.ancestor_of_mappings (hx : c.Described name noted p x) (hm : x.mappings ≠ []) :
    ∃ d, c.ancestorDiscrimination? name p.key = some d := by
  rw [hx.mappings, ancestorKeys] at hm
  cases ha : c.ancestorDiscrimination? name p.key with
  | none => simp [ha] at hm
  | some d => exact ⟨d, rfl⟩

/-- A default is in one of the forms of `JsonNullable` if it is that of an optional property in a
merge patch; a discriminator has such a default only if it is left to be set. -/
theorem Described.hasWrappedDefault_iff (hx : c.Described name noted p x) :
    x.hasWrappedDefault ↔ c.config.mergePatch ∧ x.isRequired = false ∧
      (x.isDiscriminator → x.LeftToSet) := by
  unfold PropertyDescriptor.hasWrappedDefault
  have hdisc := hx.discriminator
  rw [← hx.key] at hdisc
  cases hx.defaulted with
  | abstract modifier none lacks =>
    -- its own discriminator has no default, and is never left to be set
    rw [hx.abstract_iff.1 modifier, Bool.true_or] at hdisc
    rw [none]
    constructor
    · intro h
      cases h
    · rintro ⟨-, -, hleft⟩
      exact absurd modifier (hleft hdisc).concrete
  | fixed concrete ancestor only literal has =>
    rw [ancestor, Option.isSome_some, Bool.or_true] at hdisc
    rw [literal]
    constructor
    · intro h
      cases h
    · rintro ⟨-, -, hleft⟩
      have hseveral := (hleft hdisc).several
      simp [only] at hseveral
  | declared concrete undecided coerced value has =>
    have hleft : x.isRequired = false → x.isDiscriminator → x.LeftToSet := by
      intro hoptional hd
      rw [hdisc, Bool.or_eq_true, ← hx.abstract_iff, Option.isSome_iff_exists] at hd
      obtain ⟨d, hd⟩ := hd.resolve_left concrete
      exact ⟨hoptional, concrete, (undecided d hd).many⟩
    rw [value, DefaultValue.forProperty_isWrapped, Bool.and_eq_true, Bool.not_eq_true']
    constructor
    · rintro ⟨hpatch, hoptional⟩
      exact ⟨hpatch, hoptional, hleft hoptional⟩
    · rintro ⟨hpatch, hoptional, -⟩
      exact ⟨hpatch, hoptional⟩

/-- Only the lenient policy leaves a discriminator to be set. -/
theorem Described.of_leftToSet (hx : c.Described name noted p x) (hl : x.LeftToSet) :
    x.isDiscriminator ∧ c.config.policy = .lenient := by
  have hm : x.mappings ≠ [] := by
    intro hn
    have hseveral := hl.several
    simp [hn] at hseveral
  obtain ⟨d, hd⟩ := hx.ancestor_of_mappings hm
  refine ⟨by rw [hx.discriminator, hd, Option.isSome_some, Bool.or_true], ?_⟩
  exact ((hx.settled hl.concrete hd).several hl.several).1

end Classifier

/-- What the wrapping of a property says about its default. Wrapped properties have defaults in the
forms of `JsonNullable`, and without merge patch nothing is wrapped and no default has these forms.
A default has them without being that of a wrapped property exactly if a merge patch leaves a
discriminator to be set, which the strict policy never does. -/
structure PropertyDescriptor.WrapsDefault (config : Config) (p : PropertyDescriptor) : Prop where
  wrapped : p.wrapping = .triState → p.hasWrappedDefault
  plain : config.mergePatch = false → p.hasWrappedDefault = false ∧ p.wrapping = .plain
  astray : p.hasWrappedDefault ∧ p.wrapping = .plain ↔ config.mergePatch ∧ p.LeftToSet
  leftToSet : p.LeftToSet → p.isDiscriminator ∧ config.policy = .lenient

omit [Libraries] in
theorem captureDescriptor_wrapsDefault (config : Config) (values : TypeRef) :
    (captureDescriptor config.mergePatch values).WrapsDefault config := by
  have hleft : ¬(captureDescriptor config.mergePatch values).LeftToSet := by
    rintro ⟨-, -, hseveral⟩
    simp [captureDescriptor] at hseveral
  refine ⟨?_, fun _ => ⟨rfl, rfl⟩, ?_, fun h => absurd h hleft⟩
  · intro h
    cases h
  · constructor
    · rintro ⟨h, -⟩
      cases h
    · rintro ⟨-, h⟩
      exact absurd h hleft

theorem Classifier.Described.wrapsDefault {c : Classifier} {name : String} {noted : List Warning}
    {p : ResolvedProperty} {x : PropertyDescriptor} (hx : c.Described name noted p x) :
    x.WrapsDefault c.config where
  wrapped h := by
    obtain ⟨hpatch, hoptional, hdisc⟩ := hx.wrapping_iff.1 h
    refine hx.hasWrappedDefault_iff.2 ⟨hpatch, hoptional, ?_⟩
    intro h
    rw [hdisc] at h
    cases h
  plain h := by
    constructor
    · rw [← Bool.not_eq_true, hx.hasWrappedDefault_iff, h]
      rintro ⟨hpatch, -⟩
      cases hpatch
    · rw [hx.wrapping, h]
      rfl
  astray := by
    rw [hx.hasWrappedDefault_iff]
    constructor
    · rintro ⟨⟨hpatch, hoptional, hleft⟩, hplain⟩
      refine ⟨hpatch, hleft ?_⟩
      by_contra hdisc
      have hwrapped := hx.wrapping_iff.2 ⟨hpatch, hoptional, Bool.not_eq_true _ ▸ hdisc⟩
      rw [hplain] at hwrapped
      cases hwrapped
    · rintro ⟨hpatch, hl⟩
      have hdisc := (hx.of_leftToSet hl).1
      refine ⟨⟨hpatch, hl.optional, fun _ => hl⟩, ?_⟩
      rw [hx.wrapping, hdisc]
      simp
  leftToSet := hx.of_leftToSet

/-- In a model that is built the wrapping of a property and its default agree, but for
discriminators that a merge patch leaves to be set. -/
theorem Document.build_wraps_default_iff {d : Document} {config : Config} {b : Built}
    (h : d.build config = .ok b) :
    ∀ s ∈ b.model.schemas.values, ∀ p ∈ s.properties, p.WrapsDefault config := by
  obtain ⟨g, hierarchy, -, hm⟩ := build_models h
  intro s hs p hp
  rcases (hm.describes_of_mem hs).described_or_capture hp with ⟨r, hr⟩ | ⟨values, rfl⟩
  · exact hr.wrapsDefault
  · exact captureDescriptor_wrapsDefault config values

end

/-- Two values of a discriminator that select the same subtype. -/
def twoTags : Document :=
  ⟨"3.0.3", default,
    [("P", .schema { Schema.empty with
        type := some (.single .object)
        properties := [("k", .schema { Schema.empty with type := some (.single .string) })]
        discriminator := some ⟨"k", [("a", "S"), ("b", "S")]⟩ }),
      ("S", .schema { Schema.empty with allOf := [.ref "#/components/schemas/P"] })], by decide⟩

def Config.patching : Config := { Config.standard with mergePatch := true }

theorem build_wraps_default_iff_two_tags : ∃ b, twoTags.build .patching = .ok b ∧
    ∀ s ∈ b.model.schemas.values, ∀ p ∈ s.properties, p.WrapsDefault .patching := by
  have hok : (twoTags.build .patching).toOption.isSome = true := by cbv
  obtain ⟨b, hb⟩ := exists_eq_ok_of_isSome hok
  exact ⟨b, hb, Document.build_wraps_default_iff hb⟩

/-- The discriminator of the subtype is not wrapped, and its default is that of one that is. -/
theorem twoTags_plain_undefined : ∃ b s p, twoTags.build .patching = .ok b ∧
    s ∈ b.model.schemas.values ∧ p ∈ s.properties ∧
      p.default = some .undefined ∧ p.wrapping = .plain := by
  have hrun : ((twoTags.build .patching).toOption.bind fun b =>
      (b.model.schemas.find? "S").bind fun s => (s.property? "k").map fun p =>
        (p.default, p.wrapping)) = some (some .undefined, .plain) := by cbv
  obtain ⟨b, hb, hrun⟩ := toOption_bind_eq_some_iff.1 hrun
  obtain ⟨s, hs, hrun⟩ := Option.bind_eq_some_iff.1 hrun
  obtain ⟨p, hp, hrun⟩ := Option.map_eq_some_iff.1 hrun
  obtain ⟨hdefault, hwrapping⟩ := Prod.mk.inj hrun
  exact ⟨b, s, p, hb, NameMap.mem_values_iff.2 ⟨"S", hs⟩, List.mem_of_find?_eq_some hp, hdefault,
    hwrapping⟩

end SchemaModel
