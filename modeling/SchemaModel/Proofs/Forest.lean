import SchemaModel.Proofs.Computed
import SchemaModel.Proofs.Declared
import SchemaModel.Proofs.Hierarchy.Linear
import SchemaModel.Proofs.Integrity

/-!
The hierarchy of a model that is built is a forest, and a schema knows its subtypes as they know
it (`TypeModel.Forest`). Where the supertypes that are selected form a cycle there is no model, and
the error names the schemas of one cycle (`Document.build_forest`).
-/

namespace SchemaModel

open Relation

/-- The schemas that are met from a schema on as one goes on from supertype to supertype, up to one
that has none. -/
inductive TypeModel.Line (m : TypeModel) : String → List String → Prop where
  | root {name : String} {s : SchemaDescriptor} (found : m.schemas.find? name = some s)
      (top : s.supertype = none) : Line m name []
  | up {name parent : String} {s : SchemaDescriptor} {line : List String}
      (found : m.schemas.find? name = some s) (next : s.supertype = some parent)
      (rest : Line m parent line) : Line m name (parent :: line)

/-- Each way up ends and meets no schema twice. What has a subtype is polymorphic, and its subtypes
are those that name it their supertype, which have their keys in its discriminator. -/
structure TypeModel.Forest (m : TypeModel) : Prop where
  ends : ∀ name ∈ m.schemas.keys, ∃ line, m.Line name line ∧ (name :: line).Nodup
  super : ∀ name s parent, m.schemas.find? name = some s → s.supertype = some parent →
    ∃ p x, m.schemas.find? parent = some p ∧ p.kind = .objectSuper x
  subtypes : ∀ parent p, m.schemas.find? parent = some p → ∀ name, name ∈ p.subtypes.keys ↔
    ∃ s, m.schemas.find? name = some s ∧ s.supertype = some parent
  keys : ∀ parent p, m.schemas.find? parent = some p → ∀ name, name ∈ p.subtypes.keys ↔
    ∃ x, p.kind = .objectSuper x ∧ name ∈ x.subtypeKeys.keys

theorem SchemaDescriptor.discriminator?_eq_some_iff {s : SchemaDescriptor}
    {x : DiscriminatorDescriptor} : s.discriminator? = some x ↔ s.kind = .objectSuper x := by
  constructor
  · exact kind_of_discriminator?
  · intro hk
    rw [discriminator?, hk]

section

variable [Libraries]

namespace Models

variable {c : Classifier} {b : Built} (hm : Models c b) {name parent : String}
  {s p : SchemaDescriptor}

include hm

theorem acyclic : c.hierarchy.Acyclic := Graph.acyclic_of_hierarchy hm.hierarchy_eq

theorem supertype_eq (hf : b.model.schemas.find? name = some s) :
    s.supertype = c.hierarchy.parent? name := by
  obtain ⟨hname, hs⟩ := hm.describes name s hf
  rw [hs.supertype, hname]

theorem line_ancestors (hf : b.model.schemas.find? name = some s) :
    b.model.Line name (c.hierarchy.ancestors name) := by
  have ha := hm.acyclic
  -- by the line of the supertype, since the way up from a schema ends
  induction name using (Graph.wellFounded_below ha).induction generalizing s with
  | _ name ih =>
    have hsuper := hm.supertype_eq hf
    cases hp : c.hierarchy.parent? name with
    | none =>
      rw [Hierarchy.ancestors_eq_nil ha hp]
      exact .root hf (hsuper.trans hp)
    | some parent =>
      obtain ⟨p, hfp, -⟩ := hm.exists_parent hp
      rw [Hierarchy.ancestors_eq_cons ha hp]
      exact .up hf (hsuper.trans hp) (ih parent hp hfp)

theorem nodup_line (name : String) : (name :: c.hierarchy.ancestors name).Nodup := by
  have ha := hm.acyclic
  rw [List.nodup_cons]
  exact ⟨fun hself => ha name ((Hierarchy.mem_ancestors ha).1 hself),
    Hierarchy.nodup_ancestors ha name⟩

/-- The kind of a schema gives its discriminator if it is a supertype. -/
theorem exists_super (hf : b.model.schemas.find? parent = some p)
    (hp : c.hierarchy.parent? name = some parent) :
    ∃ x, p.kind = .objectSuper x ∧ name ∈ x.subtypeKeys.keys := by
  obtain ⟨hname, hs⟩ := hm.describes parent p hf
  obtain ⟨d, hd, hdisc⟩ := hm.super_discriminated hp
  refine ⟨d.descriptor, ?_, ?_⟩
  · rw [← SchemaDescriptor.discriminator?_eq_some_iff, hs.discriminator, hname, hd]
    rfl
  · exact NameMap.mem_keys_iff.2 ⟨d.keysFor name, (hdisc.keys name _).2 ⟨hp, rfl⟩⟩

theorem parent?_of_mem_subtypeKeys (hf : b.model.schemas.find? parent = some p)
    {x : DiscriminatorDescriptor} (hk : p.kind = .objectSuper x)
    (hn : name ∈ x.subtypeKeys.keys) : c.hierarchy.parent? name = some parent := by
  obtain ⟨hname, hs⟩ := hm.describes parent p hf
  rw [← SchemaDescriptor.discriminator?_eq_some_iff, hs.discriminator, hname] at hk
  obtain ⟨d, hd, rfl⟩ := Option.map_eq_some_iff.1 hk
  obtain ⟨keys, hkeys⟩ := NameMap.mem_keys_iff.1 hn
  exact (((hm.intact.discriminated hm.hierarchy_eq hd).keys name keys).1 hkeys).1

theorem mem_subtypes_iff (hf : b.model.schemas.find? parent = some p) :
    name ∈ p.subtypes.keys ↔ c.hierarchy.parent? name = some parent := by
  obtain ⟨hname, hs⟩ := hm.describes parent p hf
  rw [hs.subtypes, hname, Graph.mem_childrenOf hm.hierarchy_eq]

theorem exists_child (hp : c.hierarchy.parent? name = some parent) :
    ∃ s, b.model.schemas.find? name = some s := by
  obtain ⟨r, hr⟩ := ((Graph.candidate_of_parent? hm.hierarchy_eq hp).has hm.intact).1
  obtain ⟨s, hs, -⟩ := hm.builds.has_model hm.intact hr
  exact ⟨s, hs⟩

theorem forest : b.model.Forest where
  ends name hn := by
    obtain ⟨s, hf⟩ := NameMap.mem_keys_iff.1 hn
    exact ⟨_, hm.line_ancestors hf, hm.nodup_line name⟩
  super name s parent hf hsuper := by
    have hp := (hm.supertype_eq hf).symm.trans hsuper
    obtain ⟨p, hfp, -⟩ := hm.exists_parent hp
    obtain ⟨x, hx, -⟩ := hm.exists_super hfp hp
    exact ⟨p, x, hfp, hx⟩
  subtypes parent p hfp name := by
    rw [hm.mem_subtypes_iff hfp]
    constructor
    · intro hp
      obtain ⟨s, hf⟩ := hm.exists_child hp
      exact ⟨s, hf, (hm.supertype_eq hf).trans hp⟩
    · rintro ⟨s, hf, hsuper⟩
      exact (hm.supertype_eq hf).symm.trans hsuper
  keys parent p hfp name := by
    rw [hm.mem_subtypes_iff hfp]
    constructor
    · exact hm.exists_super hfp
    · rintro ⟨x, hk, hn⟩
      exact hm.parent?_of_mem_subtypeKeys hfp hk hn

end Models

/-- What is visible on a schema is found from what is visible on its supertype, and to go on from
there to the next one comes to an end. -/
structure Classifier.Inherits (c : Classifier) : Prop where
  ends : WellFounded (flip c.hierarchy.Below)
  visible : ∀ name, c.visible name = c.extend name (c.above name)

namespace Hierarchy

variable {h : Hierarchy}

/-- The schemas of one cycle of supertypes, in name order. -/
structure Cycle (h : Hierarchy) (cycle : List String) : Prop where
  sorted : cycle.Pairwise (· < ·)
  members : ∃ name, TransGen h.Below name name ∧
    ∀ other, other ∈ cycle ↔ TransGen h.Below name other ∧ TransGen h.Below other name

omit [Libraries] in
/-- What is above a schema of a cycle is of the cycle, as a schema has one supertype only. -/
theorem transGen_below_symm {name other : String} (hc : TransGen h.Below name name)
    (ht : TransGen h.Below name other) : TransGen h.Below other name := by
  -- one step further, the way back starts at the one supertype, which is where the step leads
  induction ht with
  | single hb =>
    rcases (transGen_below_iff hb).1 hc with rfl | hr
    · exact hc
    · exact hr
  | tail _ hb ih =>
    rcases (transGen_below_iff hb).1 ih with rfl | hr
    · exact hc
    · exact hr

end Hierarchy

namespace Graph

variable {h : Hierarchy} {cycle : List String}

omit [Libraries] in
theorem cycle_of_findCycle (hf : findCycle h.parents = some cycle) : h.Cycle cycle := by
  obtain ⟨name, hfound, rfl⟩ := Option.map_eq_some_iff.1 hf
  have hself := List.find?_some hfound
  rw [List.contains_iff_mem] at hself
  have hc := mem_reach_parents.1 hself
  refine ⟨NameMap.keys_pairwise _, name, hc, ?_⟩
  intro other
  rw [NameSet.mem_keys_ofNames, mem_reach_parents]
  exact ⟨fun ht => ⟨ht, Hierarchy.transGen_below_symm hc ht⟩, And.left⟩

end Graph

namespace Document

variable {d : Document} {h : Hierarchy}

/-- The supertypes in `h` are those that are selected among the candidates of the schemas. -/
def Links (d : Document) (h : Hierarchy) : Prop :=
  ∃ g c, d.resolve d.names = .ok g ∧ g.candidates = .ok c ∧
    selectParents c c.keys .empty = .ok h.parents

theorem Links.build_eq_error (hl : d.Links h) {cycle : List String}
    (hf : findCycle h.parents = some cycle) (config : Config) :
    d.build config = .error (.failed (.cyclicInheritance cycle)) := by
  obtain ⟨g, c, hg, hc, hp⟩ := hl
  have hh : g.hierarchy = .error (.cyclicInheritance cycle) := by
    rw [Graph.hierarchy, hc]
    simp only [bind, Except.bind, hp, hf]
  rw [build, buildInOrder, hg]
  change Stop.ofExcept (g.build config) = _
  rw [Graph.build, hh]
  rfl

/-- The hierarchy of each model is a forest in which supertypes and subtypes know each other, so
that what schemas inherit can be found from the root on. Supertypes that form a cycle are an error,
which lists the schemas of one cycle. -/
theorem build_forest (d : Document) (config : Config) :
    (∀ b, d.build config = .ok b → b.model.Forest ∧ ∃ g h, d.resolve d.names = .ok g ∧
        g.hierarchy = .ok h ∧ Classifier.Inherits ⟨g, h, config⟩) ∧
      ∀ h, d.Links h → ¬h.Acyclic → ∃ cycle, h.Cycle cycle ∧
        d.build config = .error (.failed (.cyclicInheritance cycle)) := by
  constructor
  · intro b hb
    obtain ⟨g, h, hg, hm⟩ := build_models hb
    exact ⟨hm.forest, g, h, hg, hm.hierarchy_eq, Graph.wellFounded_below hm.acyclic,
      Classifier.visible_eq hm.acyclic⟩
  · intro h hl ha
    obtain ⟨cycle, hf⟩ := Option.ne_none_iff_exists'.1 (mt Graph.findCycle_eq_none_iff.1 ha)
    exact ⟨cycle, Graph.cycle_of_findCycle hf, hl.build_eq_error hf config⟩

end Document

end

/-- Two supertypes, each a union of the other. -/
def mutualUnions : Document :=
  let union (member : String) : Node := .schema { Schema.empty with
    type := some (.single .object)
    properties := [("k", .schema { Schema.empty with type := some (.single .string) })]
    oneOf := [.ref ("#/components/schemas/" ++ member)]
    discriminator := some ⟨"k", []⟩ }
  ⟨"3.0.3", default, [("A", union "B"), ("B", union "A")], by decide⟩

theorem build_forest_three_levels :
    (∃ b, threeLevels.build .standard = .ok b ∧ b.model.Forest ∧ b.model.Line "C" ["B", "A"]) ∧
      ∃ h, mutualUnions.Links h ∧ ¬h.Acyclic ∧ ∃ cycle, h.Cycle cycle ∧
        mutualUnions.build .standard = .error (.failed (.cyclicInheritance cycle)) := by
  constructor
  · have hrun : ((threeLevels.build .standard).toOption.map fun b =>
        ["A", "B", "C"].map fun name =>
          (b.model.schemas.find? name).map SchemaDescriptor.supertype) =
        some [some none, some (some "A"), some (some "B")] := by cbv
    obtain ⟨b, hb, hrun⟩ := toOption_map_eq_some_iff.1 hrun
    simp only [List.map_cons, List.map_nil, List.cons.injEq, Option.map_eq_some_iff,
      and_true] at hrun
    obtain ⟨⟨sA, hA, htop⟩, ⟨sB, hB, hAB⟩, ⟨sC, hC, hBC⟩⟩ := hrun
    exact ⟨b, hb, ((Document.build_forest threeLevels .standard).1 b hb).1,
      .up hC hBC (.up hB hAB (.root hA htop))⟩
  · have hrun : ((mutualUnions.resolve mutualUnions.names).toOption.bind fun g =>
        g.candidates.toOption.bind fun c => (selectParents c c.keys .empty).toOption.map fun p =>
          (p.find? "A", p.find? "B")) = some (some "B", some "A") := by cbv
    obtain ⟨g, hg, hrun⟩ := toOption_bind_eq_some_iff.1 hrun
    obtain ⟨c, hc, hrun⟩ := toOption_bind_eq_some_iff.1 hrun
    obtain ⟨parents, hp, hrun⟩ := toOption_map_eq_some_iff.1 hrun
    obtain ⟨hAB, hBA⟩ := Prod.mk.inj hrun
    let h : Hierarchy := ⟨parents, .empty, .empty⟩
    have hl : mutualUnions.Links h := ⟨g, c, hg, hc, hp⟩
    have ha : ¬h.Acyclic := fun ha => ha "A" (.tail (.single hAB) hBA)
    exact ⟨h, hl, ha, (Document.build_forest mutualUnions .standard).2 h hl ha⟩

end SchemaModel
