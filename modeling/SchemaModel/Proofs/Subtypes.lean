import SchemaModel.Proofs.Computed
import SchemaModel.Proofs.Dispatch
import SchemaModel.Proofs.Forest

/-!
Who is below a supertype. Objects take part in the hierarchy: their kind says so, and they carry the
discriminator of the supertype. A supertype that has to take the declaration of its discriminator
from its subtypes asks this of each of them, but one that declares it itself does not ask what
else it lists, and so a schema that is no object comes to have a supertype
(`Document.build_takesPart_iff`).
-/

namespace SchemaModel

/-- The schema `name` has the supertype `parent`, or is listed there as a subtype or with keys. -/
inductive TypeModel.Linked (m : TypeModel) (name parent : String) : Prop where
  | supertype {s : SchemaDescriptor} (found : m.schemas.find? name = some s)
      (named : s.supertype = some parent)
  | subtype {p : SchemaDescriptor} (found : m.schemas.find? parent = some p)
      (listed : name ∈ p.subtypes.keys)
  | key {p : SchemaDescriptor} {x : DiscriminatorDescriptor}
      (found : m.schemas.find? parent = some p) (kind : p.kind = .objectSuper x)
      (listed : name ∈ x.subtypeKeys.keys)

/-- A schema takes part in the hierarchy below a discriminator: it is of the kind of a subtype, or
of a supertype further down, and has the property of the discriminator. -/
structure SchemaDescriptor.TakesPart (s : SchemaDescriptor) (x : DiscriminatorDescriptor) :
    Prop where
  kind : s.kind = .objectSub ∨ ∃ own, s.kind = .objectSuper own
  carries : ∃ p, s.property? x.property = some p ∧ p.isDiscriminator

/-- The schema `super` has `name` among the members of its union or the targets of its mapping. -/
inductive Graph.Lists (g : Graph) (super name : String) : Prop where
  | member {o : ObjectShape} {ref : String} (object : g.object? super = some o)
      (mem : ref ∈ o.unionMembers) (named : g.canonical ref = name)
  | mapped {o : ObjectShape} {x : Discriminator} {e : String × String}
      (object : g.object? super = some o) (discriminator : o.discriminator = some x)
      (mem : e ∈ x.mapping) (target : g.mappingTarget super e.2 = .ok name)

/-- A schema below `super` that has no properties, as the supertype has the declaration of the
discriminator itself and lists it. -/
structure SchemaDescriptor.Stray (s : SchemaDescriptor) (g : Graph) (super : String)
    (x : DiscriminatorDescriptor) : Prop where
  empty : s.properties = []
  declared : (g.property? super x.property).isSome
  listed : g.Lists super s.name

theorem SchemaDescriptor.TakesPart.isObject {s : SchemaDescriptor} {x : DiscriminatorDescriptor}
    (h : s.TakesPart x) : s.isObject := by
  rw [SchemaDescriptor.isObject]
  rcases h.kind with hk | ⟨own, hk⟩ <;> rw [hk]

namespace Graph

variable {g : Graph} {h : Hierarchy} {name super : String}

/-- Only an object has a supertype by its own declaration. -/
theorem Candidate.lists (hc : g.Candidate name super) (hg : g.Intact)
    (hn : g.object? name = none) : g.Lists super name := by
  cases hc with
  | branch discriminated found object mem named =>
    rw [object?, get?, hg.canonical_eq ⟨_, found⟩, found, Option.bind_some, object] at hn
    cases hn
  | member discriminated mem named distinct =>
    exact .member (object?_of_mem_supers hg discriminated).1 mem named
  | mapped discriminated mem target distinct =>
    obtain ⟨ho, hx⟩ := object?_of_mem_supers hg discriminated
    exact .mapped ho hx mem target

/-- A supertype that is without the declaration of its discriminator has objects below it only. -/
theorem isSome_property?_of_child (hg : g.Intact) (hh : g.hierarchy = .ok h) {d : Discrimination}
    (hd : h.discrimination? super = some d) (hp : h.parent? name = some super)
    (hn : g.object? name = none) : (g.property? super d.property).isSome := by
  obtain ⟨o, x, hm, hdisc⟩ := discriminate_of_discrimination? hh hd
  obtain ⟨mapping, heq, -, hdeclares⟩ := discriminate_eq_ok hdisc
  have hproperty : d.property = x.propertyName := by rw [Discrimination.property, heq]
  generalize d.declaredOnSuper = onSuper at hdeclares
  rw [hproperty]
  cases hdeclares with
  | onSuper found =>
    rw [property?, (object?_of_mem_supers hg hm).1, Option.bind_some, found, Option.isSome_some]
  | onChildren none mem found all =>
    have hchild := all name ((mem_childrenOf hh).2 hp)
    rw [property?, hn] at hchild
    cases hchild

end Graph

section

variable [Libraries]

namespace Models

variable {c : Classifier} {b : Built} (hm : Models c b) {name parent : String}
  {s : SchemaDescriptor}

include hm

theorem linked_iff : b.model.Linked name parent ↔ c.hierarchy.parent? name = some parent := by
  constructor
  · intro h
    cases h with
    | supertype found named => exact (hm.supertype_eq found).symm.trans named
    | subtype found listed => exact (hm.mem_subtypes_iff found).1 listed
    | key found kind listed => exact hm.parent?_of_mem_subtypeKeys found kind listed
  · intro hp
    obtain ⟨s, hs⟩ := hm.exists_child hp
    exact .supertype hs ((hm.supertype_eq hs).trans hp)

/-- The schema of a descriptor, with its kind and its properties. -/
theorem exists_schema (hf : b.model.schemas.find? name = some s) :
    ∃ r, r.name = name ∧ s.kind = c.kindOf r ∧ (c.classify name).outcome = .ok s.properties := by
  obtain ⟨r, hr, hd⟩ := (hm.builds.find?_model hm.intact).1 hf
  obtain ⟨properties, hclassify, rfl⟩ := Classifier.descriptor_eq_ok hd
  have hname := hm.intact.name_eq name r hr
  rw [hname] at hclassify
  exact ⟨r, hname, rfl, hclassify⟩

theorem kind_of_parent? (hf : b.model.schemas.find? name = some s)
    (hp : c.hierarchy.parent? name = some parent) (ho : s.isObject) :
    s.kind = .objectSub ∨ ∃ own, s.kind = .objectSuper own := by
  obtain ⟨r, rfl, hkind, -⟩ := hm.exists_schema hf
  rw [SchemaDescriptor.isObject, hkind] at ho
  rw [hkind]
  unfold Classifier.kindOf at ho ⊢
  cases hs : r.shape with
  | object o =>
    cases hd : c.hierarchy.discrimination? r.name with
    | some d => exact .inr ⟨d.descriptor, rfl⟩
    | none => exact .inl (by simp [hp])
  | primitive type => simp [hs] at ho
  | enum e => simp [hs] at ho
  | array items => simp [hs] at ho
  | map values => simp [hs] at ho

theorem takesPart_iff (hf : b.model.schemas.find? name = some s) {p : SchemaDescriptor}
    (hfp : b.model.schemas.find? parent = some p) (hp : c.hierarchy.parent? name = some parent)
    {x : DiscriminatorDescriptor} (hx : p.discriminator? = some x) :
    s.TakesPart x ↔ s.isObject := by
  refine ⟨fun h => h.isObject, fun ho => ⟨hm.kind_of_parent? hf hp ho, ?_⟩⟩
  obtain ⟨hname, hs⟩ := hm.describes name s hf
  have hsuper : b.model.supertypeOf? s = some p := by
    rw [hm.supertypeOf?_eq_some_iff hs, hname, (hm.describes parent p hfp).1]
    exact ⟨NameMap.mem_values_iff.2 ⟨parent, hfp⟩, hp⟩
  obtain ⟨q, hq⟩ := hm.answers hs ho (.direct hsuper hx rfl)
  exact ⟨q, hq.found, hq.flagged⟩

theorem stray (hf : b.model.schemas.find? name = some s) {p : SchemaDescriptor}
    (hfp : b.model.schemas.find? parent = some p) (hp : c.hierarchy.parent? name = some parent)
    {x : DiscriminatorDescriptor} (hx : p.discriminator? = some x) (ho : s.isObject = false) :
    s.Stray c.graph parent x := by
  obtain ⟨hname, hs⟩ := hm.describes name s hf
  obtain ⟨hparent, hdesc⟩ := hm.describes parent p hfp
  have hnone : c.graph.object? name = none := by
    rw [Option.eq_none_iff_forall_ne_some]
    intro o hobject
    rw [hs.object.2 ⟨o, hname ▸ hobject⟩] at ho
    cases ho
  refine ⟨?_, ?_, ?_⟩
  · obtain ⟨-, -, -, hclassify⟩ := hm.exists_schema hf
    rw [Classifier.classify, hnone] at hclassify
    exact (Except.ok.inj hclassify).symm
  · rw [hdesc.discriminator, hparent] at hx
    obtain ⟨d, hd, rfl⟩ := Option.map_eq_some_iff.1 hx
    exact Graph.isSome_property?_of_child hm.intact hm.hierarchy_eq hd hp hnone
  · rw [hname]
    exact (Graph.candidate_of_parent? hm.hierarchy_eq hp).lists hm.intact hnone

end Models

/-- In a model that is built a schema below a supertype takes part in its hierarchy exactly if it is
an object. One that is no object is there since the supertype lists it and declares the
discriminator itself; it has no properties. -/
theorem Document.build_takesPart_iff {d : Document} {config : Config} {b : Built}
    (h : d.build config = .ok b) : ∃ g, d.resolve d.names = .ok g ∧
      ∀ name parent, b.model.Linked name parent → ∃ s p x,
        b.model.schemas.find? name = some s ∧ b.model.schemas.find? parent = some p ∧
          p.discriminator? = some x ∧ (s.TakesPart x ↔ s.isObject) ∧
            (s.isObject = false → s.Stray g parent x) := by
  obtain ⟨g, hierarchy, hg, hm⟩ := build_models h
  refine ⟨g, hg, ?_⟩
  intro name parent hl
  have hp := hm.linked_iff.1 hl
  obtain ⟨s, hf⟩ := hm.exists_child hp
  obtain ⟨p, hfp, -⟩ := hm.exists_parent hp
  obtain ⟨x, hk, -⟩ := hm.exists_super hfp hp
  have hx := SchemaDescriptor.discriminator?_eq_some_iff.2 hk
  exact ⟨s, p, x, hf, hfp, hx, hm.takesPart_iff hf hfp hp hx, hm.stray hf hfp hp hx⟩

end

/-- An object that is a union of a string. -/
def stringMember : Document :=
  ⟨"3.0.3", default,
    [("P", .schema { Schema.empty with
        type := some (.single .object)
        properties := [("k", .schema { Schema.empty with type := some (.single .string) })]
        oneOf := [.ref "#/components/schemas/E"]
        discriminator := some ⟨"k", []⟩ }),
      ("E", .schema { Schema.empty with type := some (.single .string) })], by decide⟩

/-- A build gives the string the object as its supertype. -/
theorem stringMember_supertype : ((stringMember.build .standard).toOption.bind fun b =>
    (b.model.schemas.find? "E").map fun s => (s.supertype, s.isObject)) =
      some (some "P", false) := by cbv

theorem build_takesPart_iff_string_member : ∃ b, stringMember.build .standard = .ok b ∧
    ∃ g, stringMember.resolve stringMember.names = .ok g ∧
      ∀ name parent, b.model.Linked name parent → ∃ s p x,
        b.model.schemas.find? name = some s ∧ b.model.schemas.find? parent = some p ∧
          p.discriminator? = some x ∧ (s.TakesPart x ↔ s.isObject) ∧
            (s.isObject = false → s.Stray g parent x) := by
  obtain ⟨b, hb, -⟩ := toOption_bind_eq_some_iff.1 stringMember_supertype
  exact ⟨b, hb, Document.build_takesPart_iff hb⟩

/-- The string has the object as its supertype, and takes no part in the hierarchy. -/
theorem stringMember_not_takesPart : ∃ b s, stringMember.build .standard = .ok b ∧
    b.model.schemas.find? "E" = some s ∧ b.model.Linked "E" "P" ∧ ∀ x, ¬s.TakesPart x := by
  obtain ⟨b, hb, hrun⟩ := toOption_bind_eq_some_iff.1 stringMember_supertype
  obtain ⟨s, hs, hrun⟩ := Option.map_eq_some_iff.1 hrun
  obtain ⟨hsuper, hkind⟩ := Prod.mk.inj hrun
  refine ⟨b, s, hb, hs, .supertype hs hsuper, ?_⟩
  intro x hx
  rw [hx.isObject] at hkind
  cases hkind

end SchemaModel
