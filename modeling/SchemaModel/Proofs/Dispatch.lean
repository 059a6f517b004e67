import SchemaModel.Proofs.Computed
import SchemaModel.Proofs.DefaultTypes
import SchemaModel.Proofs.Inheritance

/-!
The contract of discriminators. A supertype exposes its discriminator as an abstract property, and
below it every object answers the nearest discriminator of a key with the values that select it:
those that are mapped to it, or else its name (`Document.build_dispatches`).
-/

namespace SchemaModel

open Relation

namespace Graph

/-- The values that the discriminator of `owner` maps, with the schemas to which they lead. -/
def declaredRoutes (g : Graph) (owner : String) : List (String × String) :=
  match (g.object? owner).bind ObjectShape.discriminator with
  | some x => g.routes owner x.mapping
  | none => []

/-- The values that are mapped to a subtype, in order, or else its name. -/
def valuesFor (g : Graph) (owner subtype : String) : List String :=
  let mapped := ((g.declaredRoutes owner).filter fun e => e.2 == subtype).map Prod.fst
  if mapped.isEmpty then [subtype] else mapped

/-- The declaration of a discriminator: that of the schema, or else one of a subtype. -/
inductive DeclaresFor (g : Graph) (s : SchemaDescriptor) (key : String) (p : ResolvedProperty) :
    Prop where
  | own (found : g.property? s.name key = some p)
  | lent {child : String} (none : g.property? s.name key = none) (mem : child ∈ s.subtypes.keys)
      (found : g.property? child key = some p)

end Graph

/-- The keys of a discriminator for some values: of an enum only the members count. -/
def DiscriminatorDescriptor.keysOf (x : DiscriminatorDescriptor) (m : TypeModel)
    (values : List String) : List DiscriminatorKey :=
  match x.enumType.bind m.enum? with
  | none => values.map .stringKey
  | some e => values.filterMap fun value =>
    (e.memberOfText? value).map fun member => .enumKey value member.constant

namespace TypeModel

/-- `super` is the supertype of `s`, or further up. -/
def Above (m : TypeModel) : SchemaDescriptor → SchemaDescriptor → Prop :=
  TransGen fun s super => m.supertypeOf? s = some super

/-- On the way up from `s` the first discriminator of that key is `x`, that of `super`. -/
inductive Nearest (m : TypeModel) (key : String) :
    SchemaDescriptor → SchemaDescriptor → DiscriminatorDescriptor → Prop where
  | direct {s super : SchemaDescriptor} {x : DiscriminatorDescriptor}
      (above : m.supertypeOf? s = some super) (discriminator : super.discriminator? = some x)
      (key_eq : x.property = key) : Nearest m key s super x
  | further {s super nearest : SchemaDescriptor} {x : DiscriminatorDescriptor}
      (above : m.supertypeOf? s = some super) (other : ¬super.DiscriminatesBy key)
      (rest : Nearest m key super nearest x) : Nearest m key s nearest x

theorem exists_nearest {m : TypeModel} {key : String} {s super : SchemaDescriptor}
    (ha : m.Above s super) (hk : super.DiscriminatesBy key) :
    ∃ nearest x, m.Nearest key s nearest x := by
  induction ha using TransGen.head_induction_on with
  | single h =>
    obtain ⟨x, hx, he⟩ := hk
    exact ⟨_, x, .direct h hx he⟩
  | @head s parent h _ ih =>
    by_cases hp : parent.DiscriminatesBy key
    · obtain ⟨x, hx, he⟩ := hp
      exact ⟨_, x, .direct h hx he⟩
    · obtain ⟨nearest, x, hn⟩ := ih
      exact ⟨nearest, x, .further h hp hn⟩

end TypeModel

/-- A supertype exposes its discriminator: the property is abstract and has no default, and the
enum of the discriminator is that of its declaration. -/
structure SchemaDescriptor.Exposes (s : SchemaDescriptor) (g : Graph) (x : DiscriminatorDescriptor)
    (p : PropertyDescriptor) : Prop where
  found : s.property? x.property = some p
  modifier : p.modifier = .abstract
  default : p.default = none ∧ p.hasDefault = false
  enumType : ∃ declaration, g.DeclaresFor s x.property declaration ∧
    x.enumType = (g.enumOf? declaration.type).map Prod.fst

/-- A schema answers the discriminator `x` of a supertype by its property `p` of that key. -/
structure SchemaDescriptor.Answers (s : SchemaDescriptor) (g : Graph)
    (policy : DiscriminatorPolicy) (b : Built) (key : String) (super : SchemaDescriptor)
    (x : DiscriminatorDescriptor) (p : PropertyDescriptor) : Prop where
  found : s.property? key = some p
  flagged : p.isDiscriminator
  keys : p.mappings = x.keysOf b.model (g.valuesFor super.name s.name)
  direct : b.model.supertypeOf? s = some super → x.subtypeKeys.find? s.name = some p.mappings
  settled : ¬s.DiscriminatesBy p.key →
    Classifier.Settled policy b.stats.warnings s.name x.enumType p

theorem Graph.Discriminated.mapping_eq {g : Graph} {h : Hierarchy} {owner : String}
    {d : Discrimination} (hd : g.Discriminated h owner d) : d.mapping = g.declaredRoutes owner := by
  obtain ⟨o, x, ho, hx, -, hm⟩ := hd.object
  rw [hm, declaredRoutes, ho, Option.bind_some, hx]

section

variable [Libraries]

/-- The keys of a subtype, read off the declared mapping. -/
theorem Models.keysFor_eq {c : Classifier} {b : Built} (hm : Models c b) {owner : String}
    {d : Discrimination} (hd : c.graph.Discriminated c.hierarchy owner d) (subtype : String) :
    d.keysFor subtype = d.descriptor.keysOf b.model (c.graph.valuesFor owner subtype) := by
  unfold Discrimination.keysFor discriminatorKeys DiscriminatorDescriptor.keysOf Graph.valuesFor
  rw [hd.members, hm.builds.enum?_eq hm.intact]
  cases d.descriptor.enumType.bind c.graph.enum? with
  | none => rw [hd.mapping_eq]
  | some e => rw [hd.mapping_eq]

namespace Classifier

variable {c : Classifier}

omit [Libraries] in
/-- Going up from a schema, the discriminator of its supertype comes first. -/
theorem ancestorDiscrimination?_of_parent (ha : c.hierarchy.Acyclic) {name parent key : String}
    (hp : c.hierarchy.parent? name = some parent) : c.ancestorDiscrimination? name key =
      if c.isOwn parent key then c.hierarchy.discrimination? parent
      else c.ancestorDiscrimination? parent key := by
  rw [ancestorDiscrimination?, Hierarchy.ancestors_eq_cons ha hp, isOwn]
  cases hd : c.hierarchy.discrimination? parent with
  | none =>
    rw [List.filterMap_cons_none hd]
    rfl
  | some d =>
    rw [List.filterMap_cons_some hd, List.find?_cons]
    cases hk : d.property == key <;> simp [hk, ancestorDiscrimination?]

theorem Described.default_of_abstract {name : String} {noted : List Warning}
    {p : ResolvedProperty} {x : PropertyDescriptor} (hx : c.Described name noted p x)
    (ha : x.modifier = .abstract) : x.default = none ∧ x.hasDefault = false := by
  cases hx.defaulted with
  | abstract modifier none lacks => exact ⟨none, lacks⟩
  | fixed concrete ancestor only literal has => exact absurd ha concrete
  | declared concrete undecided coerced value has => exact absurd ha concrete

end Classifier

namespace Models

variable {c : Classifier} {b : Built} (hm : Models c b)

include hm

/-- The nearest discriminator on the way up is the one that the classifier finds. -/
theorem ancestorDiscrimination?_of_nearest {key : String} {s super : SchemaDescriptor}
    {x : DiscriminatorDescriptor} (hn : b.model.Nearest key s super x)
    (hs : Describes c b.stats.warnings s) :
    ∃ d, c.ancestorDiscrimination? s.name key = some d ∧ d.descriptor = x ∧
      c.hierarchy.discrimination? super.name = some d := by
  have ha := Graph.acyclic_of_hierarchy hm.hierarchy_eq
  induction hn with
  | @direct s super x above discriminator key_eq =>
    obtain ⟨hmem, hp⟩ := (hm.supertypeOf?_eq_some_iff hs).1 above
    have hsuper := hm.describes_of_mem hmem
    rw [hsuper.discriminator] at discriminator
    obtain ⟨d, hd, rfl⟩ := Option.map_eq_some_iff.1 discriminator
    have hown : c.isOwn super.name key := Classifier.isOwn_iff.2 ⟨d, hd, key_eq⟩
    exact ⟨d, by rw [Classifier.ancestorDiscrimination?_of_parent ha hp, if_pos hown, hd], rfl, hd⟩
  | @further s super nearest x above other rest ih =>
    obtain ⟨hmem, hp⟩ := (hm.supertypeOf?_eq_some_iff hs).1 above
    have hsuper := hm.describes_of_mem hmem
    rw [hsuper.discriminatesBy_iff] at other
    rw [Classifier.ancestorDiscrimination?_of_parent ha hp, if_neg other]
    exact ih hsuper

theorem exposes {s : SchemaDescriptor} (hs : Describes c b.stats.warnings s)
    {x : DiscriminatorDescriptor} (hx : s.discriminator? = some x) :
    ∃ p, s.Exposes c.graph x p := by
  have hg := hm.intact
  have hh := hm.hierarchy_eq
  have hdisc := hs.discriminator
  rw [hx] at hdisc
  obtain ⟨d, hd, rfl⟩ := Option.map_eq_some_iff.1 hdisc.symm
  have hdiscriminated := hg.discriminated hh hd
  obtain ⟨o, -, ho, -⟩ := hdiscriminated.object
  have hown : c.isOwn s.name d.property := Classifier.isOwn_iff.2 ⟨d, hd, rfl⟩
  obtain ⟨p, hp, hk⟩ := (hs.declares_iff (hs.object.2 ⟨o, ho⟩)).2
    (Classifier.isSome_shown?_of_isOwn hg hh hown)
  obtain ⟨-, r, -, hr⟩ := hs.declared p hp
  have habstract : p.modifier = .abstract := hr.abstract_iff.2 (hk ▸ hown)
  refine ⟨p, (hs.property?_eq_some_iff hg hh).2 ⟨hp, hk⟩, habstract,
    hr.default_of_abstract habstract, d.declaration, ?_, hdiscriminated.enumType⟩
  have hdeclared := hdiscriminated.declared
  cases hon : d.declaredOnSuper with
  | true =>
    rw [hon, if_pos rfl] at hdeclared
    exact .own hdeclared
  | false =>
    rw [hon, if_neg Bool.false_ne_true] at hdeclared
    obtain ⟨child, hchild, hfound⟩ := hdiscriminated.lent hon
    refine .lent hdeclared ?_ hfound
    rw [hs.subtypes]
    exact (Graph.mem_childrenOf hh).2 hchild

theorem answers {s super : SchemaDescriptor} (hs : Describes c b.stats.warnings s)
    (ho : s.isObject) {key : String} {x : DiscriminatorDescriptor}
    (hn : b.model.Nearest key s super x) :
    ∃ p, s.Answers c.graph c.config.policy b key super x p := by
  have hg := hm.intact
  have hh := hm.hierarchy_eq
  obtain ⟨d, ha, rfl, hd⟩ := hm.ancestorDiscrimination?_of_nearest hn hs
  have hdiscriminated := hg.discriminated hh hd
  obtain ⟨p, hp, hk⟩ := (hs.declares_iff ho).2 (Classifier.isSome_shown?_of_above hg hh
    (Classifier.isSome_above_of_ancestor hg hh ha))
  obtain ⟨-, r, -, hr⟩ := hs.declared p hp
  have har : c.ancestorDiscrimination? s.name r.key = some d := by rw [← hr.key, hk, ha]
  have hmappings : p.mappings = d.keysFor s.name := by
    rw [hr.mappings, Classifier.ancestorKeys, har]
  refine ⟨p, (hs.property?_eq_some_iff hg hh).2 ⟨hp, hk⟩, ?_, ?_, ?_, ?_⟩
  · rw [hr.discriminator, har, Option.isSome_some, Bool.or_true]
  · rw [hmappings, hm.keysFor_eq hdiscriminated]
  · intro hsuper
    rw [hmappings, hdiscriminated.keys]
    exact ⟨((hm.supertypeOf?_eq_some_iff hs).1 hsuper).2, rfl⟩
  · intro hown
    rw [← hs.abstract_iff hp] at hown
    exact hr.settled hown har

end Models

/-- In a model that is built every supertype exposes its discriminator, and every object below
answers the nearest discriminator of each key: its property has the keys that select it there. If
the property is not the schema's own discriminator, it is fixed to its only key, or has several
under the lenient policy, which is warned about. -/
theorem Document.build_dispatches {d : Document} {config : Config} {b : Built}
    (h : d.build config = .ok b) : ∃ g, d.resolve d.names = .ok g ∧
      (∀ s ∈ b.model.schemas.values, ∀ x, s.discriminator? = some x → ∃ p, s.Exposes g x p) ∧
      ∀ s ∈ b.model.schemas.values, s.isObject → ∀ super key, b.model.Above s super →
        super.DiscriminatesBy key → ∃ nearest x p, b.model.Nearest key s nearest x ∧
          s.Answers g config.policy b key nearest x p := by
  obtain ⟨g, hierarchy, hg, hm⟩ := build_models h
  refine ⟨g, hg, ?_, ?_⟩
  · intro s hs x hx
    exact hm.exposes (hm.describes_of_mem hs) hx
  · intro s hs ho super key ha hk
    obtain ⟨nearest, x, hn⟩ := TypeModel.exists_nearest ha hk
    obtain ⟨p, hp⟩ := hm.answers (hm.describes_of_mem hs) ho hn
    exact ⟨nearest, x, p, hn, hp⟩

end

/-- The schema at the end answers a discriminator two levels up. -/
theorem build_dispatches_three_levels : ∃ b g s super, threeLevels.build .standard = .ok b ∧
    s ∈ b.model.schemas.values ∧ s.isObject ∧ b.model.Above s super ∧ super.DiscriminatesBy "k" ∧
      ∃ nearest x p, b.model.Nearest "k" s nearest x ∧ s.Answers g .lenient b "k" nearest x p := by
  have hrun : ((threeLevels.build .standard).toOption.bind fun b =>
      (b.model.schemas.find? "C").bind fun s => (b.model.supertypeOf? s).bind fun t =>
        (b.model.supertypeOf? t).bind fun super => super.discriminator?.map fun x =>
          (s.isObject, x.property)) = some (true, "k") := by cbv
  obtain ⟨b, hb, hrun⟩ := toOption_bind_eq_some_iff.1 hrun
  obtain ⟨s, hs, hrun⟩ := Option.bind_eq_some_iff.1 hrun
  obtain ⟨t, ht, hrun⟩ := Option.bind_eq_some_iff.1 hrun
  obtain ⟨super, hsuper, hrun⟩ := Option.bind_eq_some_iff.1 hrun
  obtain ⟨x, hx, hrun⟩ := Option.map_eq_some_iff.1 hrun
  obtain ⟨ho, hk⟩ := Prod.mk.inj hrun
  have hmem : s ∈ b.model.schemas.values := NameMap.mem_values_iff.2 ⟨"C", hs⟩
  have habove : b.model.Above s super := .tail (.single ht) hsuper
  obtain ⟨g, -, -, hanswers⟩ := Document.build_dispatches hb
  exact ⟨b, g, s, super, hb, hmem, ho, habove, ⟨x, hx, hk⟩,
    hanswers s hmem ho super "k" habove ⟨x, hx, hk⟩⟩

end SchemaModel
