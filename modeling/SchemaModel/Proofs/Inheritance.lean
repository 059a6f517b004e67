import SchemaModel.Proofs.Computed
import SchemaModel.Proofs.Declared

/-!
Inheritance as the descriptors show it. A schema declares what its supertype declares, and its
flags say so: inherited are the keys of the supertype, abstract is its own discriminator, and of
the other properties those that are inherited override (`Document.build_inherits`).
-/

namespace SchemaModel

/-- The flags of a schema agree with the descriptor of its supertype. -/
structure SchemaDescriptor.InheritsFrom (s super : SchemaDescriptor) : Prop where
  keeps : ∀ key, super.Declares key → s.Declares key
  inherited : ∀ p ∈ s.declared, p.isInherited ↔ super.Declares p.key
  overrides : ∀ p ∈ s.declared, ¬s.DiscriminatesBy p.key →
    (p.modifier = .override ↔ p.isInherited)
  overridable : ∀ p ∈ super.declared, p.modifier ≠ .final

/-- A schema has subtypes of its own: it is not the end of its line. -/
def Role.isSuper : Role → Bool
  | .super => true
  | .intermediate => true
  | _ => false

def Role.hasSuper : Role → Bool
  | .intermediate => true
  | .sub => true
  | _ => false

namespace Hierarchy

variable {h : Hierarchy} {name : String}

theorem isSuper_role : (h.role name).isSuper = (h.discrimination? name).isSome := by
  rw [role]
  cases h.discrimination? name <;> cases h.parent? name <;> rfl

theorem hasSuper_role : (h.role name).hasSuper = (h.parent? name).isSome := by
  rw [role]
  cases h.discrimination? name <;> cases h.parent? name <;> rfl

end Hierarchy

namespace Classifier

section

variable {role : Role} {isOwn isInherited ofAncestor : Bool}

theorem modifier_eq_abstract_iff :
    modifier role isOwn isInherited ofAncestor = .abstract ↔ role.isSuper ∧ isOwn := by
  cases role <;> cases isOwn <;> cases isInherited <;> cases ofAncestor <;> decide

theorem modifier_eq_override_iff (hown : isOwn = false) (ha : ofAncestor → isInherited) :
    modifier role isOwn isInherited ofAncestor = .override ↔ role.hasSuper ∧ isInherited := by
  subst hown
  cases role <;> cases isInherited <;> cases ofAncestor <;> revert ha <;> decide

theorem modifier_ne_override (hr : role.hasSuper = false) :
    modifier role isOwn isInherited ofAncestor ≠ .override := by
  cases role <;> cases isOwn <;> cases isInherited <;> cases ofAncestor <;> revert hr <;> decide

theorem modifier_ne_final (hr : role.isSuper) :
    modifier role isOwn isInherited ofAncestor ≠ .final := by
  cases role <;> cases isOwn <;> cases isInherited <;> cases ofAncestor <;> revert hr <;> decide

end

variable {c : Classifier} {name : String} {noted : List Warning} {p : ResolvedProperty}
  {x : PropertyDescriptor}

variable [Libraries]

theorem Described.isInherited_iff (hx : c.Described name noted p x) :
    x.isInherited ↔ ((c.above name).property? x.key).isSome := by
  rw [hx.inherited, List.contains_iff_mem, inheritedKeys_eq, Visible.mem_keys_iff, hx.key]

theorem Described.abstract_iff (hx : c.Described name noted p x) :
    x.modifier = .abstract ↔ c.isOwn name x.key := by
  rw [hx.modifier, modifier_eq_abstract_iff, Hierarchy.isSuper_role, hx.key]
  constructor
  · rintro ⟨-, hown⟩
    exact hown
  · intro hown
    obtain ⟨d, hd, -⟩ := isOwn_iff.1 hown
    exact ⟨by rw [hd]; rfl, hown⟩

/-- The discriminator of an ancestor is inherited, so nothing else makes a property override. -/
theorem Described.override_iff (hx : c.Described name noted p x) (hg : c.graph.Intact)
    (hh : c.graph.hierarchy = .ok c.hierarchy) {parent : String}
    (hp : c.hierarchy.parent? name = some parent) (hown : ¬c.isOwn name x.key) :
    x.modifier = .override ↔ x.isInherited := by
  have hancestor : (c.ancestorDiscrimination? name p.key).isSome → x.isInherited := by
    intro ha
    obtain ⟨d, hd⟩ := Option.isSome_iff_exists.1 ha
    rw [hx.isInherited_iff, hx.key]
    exact isSome_above_of_ancestor hg hh hd
  rw [hx.key, Bool.not_eq_true] at hown
  rw [hx.modifier, modifier_eq_override_iff hown hancestor, Hierarchy.hasSuper_role, hp]
  simp

theorem Described.ne_final (hx : c.Described name noted p x) {d : Discrimination}
    (hd : c.hierarchy.discrimination? name = some d) : x.modifier ≠ .final := by
  rw [hx.modifier]
  apply modifier_ne_final
  rw [Hierarchy.isSuper_role, hd]
  rfl

theorem Described.of_root (hx : c.Described name noted p x)
    (hp : c.hierarchy.parent? name = none) : x.isInherited = false ∧ x.modifier ≠ .override := by
  constructor
  · rw [← Bool.not_eq_true, hx.isInherited_iff, above, hp]
    exact Bool.false_ne_true
  · rw [hx.modifier]
    apply modifier_ne_override
    rw [Hierarchy.hasSuper_role, hp]
    rfl

end Classifier

section

variable [Libraries]

section

variable {c : Classifier} {noted : List Warning} {s : SchemaDescriptor} (hs : Describes c noted s)

include hs

theorem Describes.abstract_iff {p : PropertyDescriptor} (hp : p ∈ s.declared) :
    p.modifier = .abstract ↔ s.DiscriminatesBy p.key := by
  obtain ⟨-, r, -, hr⟩ := hs.declared p hp
  rw [hr.abstract_iff, hs.discriminatesBy_iff]

theorem Describes.of_root (hn : s.supertype = none) :
    ∀ p ∈ s.properties, p.isInherited = false ∧ p.modifier ≠ .override := by
  intro p hp
  rcases hs.described_or_capture hp with ⟨r, hr⟩ | ⟨values, rfl⟩
  · exact hr.of_root (hs.supertype ▸ hn)
  · exact ⟨rfl, PropertyModifier.noConfusion⟩

end

theorem Models.inheritsFrom {c : Classifier} {b : Built} (hm : Models c b)
    {s super : SchemaDescriptor} (hs : Describes c b.stats.warnings s) (ho : s.isObject)
    (hsuper : b.model.supertypeOf? s = some super) : s.InheritsFrom super := by
  have hg := hm.intact
  have hh := hm.hierarchy_eq
  obtain ⟨hmem, hp⟩ := (hm.supertypeOf?_eq_some_iff hs).1 hsuper
  have hdesc := hm.describes_of_mem hmem
  have habove : ∀ key, ((c.above s.name).property? key).isSome ↔ super.Declares key := by
    intro key
    rw [Classifier.above_property? hp, hdesc.declares_iff (hm.super_isObject hdesc hp)]
  refine ⟨?_, ?_, ?_, ?_⟩
  · intro key hk
    rw [hs.declares_iff ho]
    exact Classifier.isSome_shown?_of_above hg hh ((habove key).2 hk)
  · intro p hpm
    obtain ⟨-, r, -, hr⟩ := hs.declared p hpm
    rw [hr.isInherited_iff, habove]
  · intro p hpm hown
    obtain ⟨-, r, -, hr⟩ := hs.declared p hpm
    rw [hs.discriminatesBy_iff] at hown
    exact hr.override_iff hg hh hp hown
  · intro q hq
    obtain ⟨-, r, -, hr⟩ := hdesc.declared q hq
    obtain ⟨d, hd, -⟩ := hm.super_discriminated hp
    exact hr.ne_final hd

/-- In a model that is built the flags of every object agree with the descriptor of its supertype:
it declares the same keys and others, exactly the same keys are inherited, its own discriminator
alone is abstract, and it overrides what may be overridden. Without a supertype nothing is
inherited. -/
theorem Document.build_inherits {d : Document} {config : Config} {b : Built}
    (h : d.build config = .ok b) : ∀ s ∈ b.model.schemas.values, s.isObject →
      (∀ p ∈ s.declared, p.modifier = .abstract ↔ s.DiscriminatesBy p.key) ∧
      (s.supertype.isSome → ∃ super, b.model.supertypeOf? s = some super ∧ s.InheritsFrom super) ∧
      (s.supertype = none →
        ∀ p ∈ s.properties, p.isInherited = false ∧ p.modifier ≠ .override) := by
  obtain ⟨g, hierarchy, -, hm⟩ := build_models h
  intro s hmem ho
  have hs := hm.describes_of_mem hmem
  refine ⟨fun p hp => hs.abstract_iff hp, ?_, hs.of_root⟩
  intro hsuper
  obtain ⟨super, hsuper⟩ := hm.exists_supertypeOf? hs hsuper
  exact ⟨super, hsuper, hm.inheritsFrom hs ho hsuper⟩

end

theorem build_inherits_three_levels : ∃ b, threeLevels.build .standard = .ok b ∧
    (∀ s ∈ b.model.schemas.values, s.isObject →
      (∀ p ∈ s.declared, p.modifier = .abstract ↔ s.DiscriminatesBy p.key) ∧
      (s.supertype.isSome → ∃ super, b.model.supertypeOf? s = some super ∧ s.InheritsFrom super) ∧
      (s.supertype = none →
        ∀ p ∈ s.properties, p.isInherited = false ∧ p.modifier ≠ .override)) ∧
    ∃ s super p q, b.model.schemas.find? "C" = some s ∧ b.model.supertypeOf? s = some super ∧
      super.name = "B" ∧ s.InheritsFrom super ∧
      s.property? "k" = some p ∧ p.isInherited ∧ p.modifier = .override ∧
      super.property? "k" = some q ∧ q.isInherited ∧ q.modifier = .abstract := by
  have hrun : ((threeLevels.build .standard).toOption.bind fun b =>
      (b.model.schemas.find? "C").bind fun s => (b.model.supertypeOf? s).bind fun super =>
        (s.property? "k").bind fun p => (super.property? "k").map fun q =>
          (s.isObject, s.supertype.isSome, super.name, (p.isInherited, p.modifier),
            (q.isInherited, q.modifier))) =
      some (true, true, "B", (true, .override), (true, .abstract)) := by cbv
  obtain ⟨b, hb, hrun⟩ := toOption_bind_eq_some_iff.1 hrun
  obtain ⟨s, hs, hrun⟩ := Option.bind_eq_some_iff.1 hrun
  obtain ⟨super, hsuper, hrun⟩ := Option.bind_eq_some_iff.1 hrun
  obtain ⟨p, hp, hrun⟩ := Option.bind_eq_some_iff.1 hrun
  obtain ⟨q, hq, hrun⟩ := Option.map_eq_some_iff.1 hrun
  simp only [Prod.mk.injEq] at hrun
  obtain ⟨ho, hhas, hname, ⟨hpi, hpm⟩, hqi, hqm⟩ := hrun
  have hall := Document.build_inherits hb
  obtain ⟨-, hinherits, -⟩ := hall s (NameMap.mem_values_iff.2 ⟨"C", hs⟩) ho
  obtain ⟨super', hsuper', hfrom⟩ := hinherits hhas
  rw [hsuper, Option.some.injEq] at hsuper'
  subst hsuper'
  exact ⟨b, hb, hall, s, super, p, q, hs, hsuper, hname, hfrom, hp, hpi, hpm, hq, hqi, hqm⟩

end SchemaModel
