import SchemaModel.Proofs.Computed
import SchemaModel.Proofs.Inheritance
import SchemaModel.Proofs.Resolve.Inclusion

/-!
The types of overriding properties. A property has the type of the one it overrides unless its
schema declares the key again with another type. That is an error where the declaration is merged
in by `allOf`, but nothing compares the two where a union or a mapping makes the schema a subtype
(`Document.build_override_type_iff`).
-/

namespace SchemaModel

open Relation

/-- Properties of one key have one type in a schema and its supertype. -/
def SchemaDescriptor.KeepsTypes (s super : SchemaDescriptor) : Prop :=
  ∀ p ∈ s.declared, ∀ q ∈ super.declared, p.key = q.key → p.type = q.type

/-- On the way up from a schema on, `owner` is the first whose object declares the key. -/
inductive TypeModel.FirstDeclares (m : TypeModel) (g : Graph) (key : String) :
    SchemaDescriptor → SchemaDescriptor → ResolvedProperty → Prop where
  | own {s : SchemaDescriptor} {p : ResolvedProperty} (found : g.property? s.name key = some p) :
      FirstDeclares m g key s s p
  | further {s super owner : SchemaDescriptor} {p : ResolvedProperty}
      (none : g.property? s.name key = none) (above : m.supertypeOf? s = some super)
      (rest : FirstDeclares m g key super owner p) : FirstDeclares m g key s owner p

theorem TypeModel.FirstDeclares.found {m : TypeModel} {g : Graph} {key : String}
    {s owner : SchemaDescriptor} {p : ResolvedProperty} (h : m.FirstDeclares g key s owner p) :
    g.property? owner.name key = some p := by
  induction h with
  | own found => exact found
  | further none above rest ih => exact ih

section

variable [Libraries]

namespace Models

variable {c : Classifier} {b : Built} (hm : Models c b) {s super : SchemaDescriptor}
  (hs : Describes c b.stats.warnings s)

include hm hs

/-- The first declaration on the way up is the one that is shown. -/
theorem shown?_of_firstDeclares {key : String} {owner : SchemaDescriptor} {p : ResolvedProperty}
    (h : b.model.FirstDeclares c.graph key s owner p) : c.shown? s.name key = some p := by
  induction h with
  | own found =>
    rw [Classifier.shown?_eq hm.intact hm.hierarchy_eq, found, Option.some_or, Option.some_or]
  | @further s super owner p none above rest ih =>
    obtain ⟨hmem, hp⟩ := (hm.supertypeOf?_eq_some_iff hs).1 above
    have hshown := ih (hm.describes_of_mem hmem)
    rw [Classifier.shown?_eq hm.intact hm.hierarchy_eq, none, Classifier.above_property? hp, hshown,
      Option.none_or, Option.some_or]

/-- A property has the type of its supertype's, or that of a declaration of its own. -/
theorem override_type_iff (hsuper : b.model.supertypeOf? s = some super) {p q : PropertyDescriptor}
    (hp : p ∈ s.declared) (hq : q ∈ super.declared) (hk : p.key = q.key) :
    p.type = q.type ↔ ∀ own, c.graph.property? s.name p.key = some own → own.type = q.type := by
  have hg := hm.intact
  have hh := hm.hierarchy_eq
  obtain ⟨hmem, hparent⟩ := (hm.supertypeOf?_eq_some_iff hs).1 hsuper
  obtain ⟨r, hr, hpr⟩ := hs.shown hg hh hp
  obtain ⟨t, ht, hqt⟩ := (hm.describes_of_mem hmem).shown hg hh hq
  rw [← hk] at ht
  -- what the supertype shows is hidden by an own declaration only
  have hshown : c.shown? s.name p.key = (c.graph.property? s.name p.key).or (some t) := by
    rw [Classifier.shown?_eq hg hh, Classifier.above_property? hparent, ht]
    cases c.graph.property? s.name p.key <;> rfl
  rw [hr] at hshown
  rw [hpr.type, hqt.type]
  cases hown : c.graph.property? s.name p.key with
  | none =>
    rw [hown, Option.none_or, Option.some.injEq] at hshown
    simp [hshown]
  | some own =>
    rw [hown, Option.some_or, Option.some.injEq] at hshown
    simp [hshown]

end Models

theorem Document.resolve_includes_all {d : Document} {g : Graph} (hg : d.resolve d.names = .ok g)
    {schema owner key : String} (hi : ReflTransGen (d.Includes g) schema owner)
    {p : ResolvedProperty} (hp : g.property? owner key = some p) :
    ∃ q, g.property? schema key = some q ∧ q.type = p.type := by
  induction hi using ReflTransGen.head_induction_on with
  | refl => exact ⟨p, hp, rfl⟩
  | head hfirst _ ih =>
    obtain ⟨q, hq, hqp⟩ := ih
    obtain ⟨r, hr, hrq⟩ := resolve_includes (fun _ hm => hm) hg hfirst hq
    exact ⟨r, hr, hrq.trans hqp⟩

/-- In a model that is built a property has the type of the one it overrides exactly if its schema
does not declare it with another type; and so it has where the object that declares the overridden
property is merged into that of the schema. -/
theorem Document.build_override_type_iff {d : Document} {config : Config} {b : Built}
    (h : d.build config = .ok b) : ∃ g, d.resolve d.names = .ok g ∧
      ∀ s ∈ b.model.schemas.values, ∀ super, b.model.supertypeOf? s = some super →
        ∀ p ∈ s.declared, ∀ q ∈ super.declared, p.key = q.key →
          (p.type = q.type ↔
            ∀ own, g.property? s.name p.key = some own → own.type = q.type) ∧
          ∀ owner declaration, b.model.FirstDeclares g p.key super owner declaration →
            q.type = declaration.type ∧
              (ReflTransGen (d.Includes g) s.name owner.name → p.type = q.type) := by
  obtain ⟨g, hierarchy, hg, hm⟩ := build_models h
  refine ⟨g, hg, ?_⟩
  intro s hmem super hsuper p hp q hq hk
  have hs := hm.describes_of_mem hmem
  have hsupers := hm.describes_of_mem ((hm.supertypeOf?_eq_some_iff hs).1 hsuper).1
  have hiff := hm.override_type_iff hs hsuper hp hq hk
  refine ⟨hiff, ?_⟩
  intro owner declaration hfirst
  obtain ⟨shown, hshown, hqt⟩ := hsupers.shown hm.intact hm.hierarchy_eq hq
  rw [← hk, hm.shown?_of_firstDeclares hsupers hfirst, Option.some.injEq] at hshown
  have htype : q.type = declaration.type := by rw [hqt.type, hshown]
  refine ⟨htype, ?_⟩
  intro hi
  obtain ⟨merged, hmerged, hmt⟩ := resolve_includes_all hg hi hfirst.found
  apply hiff.2
  intro own hown
  rw [hmerged, Option.some.injEq] at hown
  rw [← hown, hmt, htype]

end

/-- A union with a member that declares a property of the union anew, as a number and no text. -/
def redeclaringMember : Document :=
  let text : Node := .schema { Schema.empty with type := some (.single .string) }
  let number : Node := .schema { Schema.empty with type := some (.single .integer) }
  ⟨"3.0.3", default,
    [("P", .schema { Schema.empty with
        type := some (.single .object)
        properties := [("k", text), ("x", text)]
        oneOf := [.ref "#/components/schemas/S"]
        discriminator := some ⟨"k", []⟩ }),
      ("S", .schema { Schema.empty with
        type := some (.single .object)
        properties := [("x", number)] })], by decide⟩

/-- The member declares a number where the union declares a text. -/
theorem redeclaringMember_built : ∃ b s super p q, redeclaringMember.build .standard = .ok b ∧
    s ∈ b.model.schemas.values ∧ s.name = "S" ∧ b.model.supertypeOf? s = some super ∧
      s.property? "x" = some p ∧ super.property? "x" = some q ∧ p.modifier = .override ∧
      p.type = .primitive .int32 ∧ q.type = .primitive .string := by
  have hrun : ((redeclaringMember.build .standard).toOption.bind fun b =>
      (b.model.schemas.find? "S").bind fun s => (b.model.supertypeOf? s).bind fun super =>
        (s.property? "x").bind fun p => (super.property? "x").map fun q =>
          (s.name, p.modifier, p.type, q.type)) =
            some ("S", .override, .primitive .int32, .primitive .string) := by cbv
  obtain ⟨b, hb, hrun⟩ := toOption_bind_eq_some_iff.1 hrun
  obtain ⟨s, hs, hrun⟩ := Option.bind_eq_some_iff.1 hrun
  obtain ⟨super, hsuper, hrun⟩ := Option.bind_eq_some_iff.1 hrun
  obtain ⟨p, hp, hrun⟩ := Option.bind_eq_some_iff.1 hrun
  obtain ⟨q, hq, hrun⟩ := Option.map_eq_some_iff.1 hrun
  simp only [Prod.mk.injEq] at hrun
  obtain ⟨hname, hmodifier, hpt, hqt⟩ := hrun
  exact ⟨b, s, super, p, q, hb, NameMap.mem_values_iff.2 ⟨"S", hs⟩, hname, hsuper, hp, hq,
    hmodifier, hpt, hqt⟩

theorem build_override_type_iff_redeclaring_member : ∃ b,
    redeclaringMember.build .standard = .ok b ∧
    ∃ g, redeclaringMember.resolve redeclaringMember.names = .ok g ∧
      (∀ s ∈ b.model.schemas.values, ∀ super, b.model.supertypeOf? s = some super →
        ∀ p ∈ s.declared, ∀ q ∈ super.declared, p.key = q.key →
          (p.type = q.type ↔
            ∀ own, g.property? s.name p.key = some own → own.type = q.type) ∧
          ∀ owner declaration, b.model.FirstDeclares g p.key super owner declaration →
            q.type = declaration.type ∧
              (ReflTransGen (redeclaringMember.Includes g) s.name owner.name →
                p.type = q.type)) ∧
      ∃ s super p q own, s ∈ b.model.schemas.values ∧ s.name = "S" ∧
        b.model.supertypeOf? s = some super ∧ s.property? "x" = some p ∧
        super.property? "x" = some q ∧ p.type ≠ q.type ∧
        g.property? "S" "x" = some own ∧ own.type ≠ q.type := by
  obtain ⟨b, s, super, p, q, hb, hs, hname, hsuper, hp, hq, -, hpt, hqt⟩ := redeclaringMember_built
  have hne : p.type ≠ q.type := by
    rw [hpt, hqt]
    decide
  obtain ⟨g, hg, hall⟩ := Document.build_override_type_iff hb
  obtain ⟨hpm, hpk⟩ := SchemaDescriptor.mem_of_property? hp
  obtain ⟨hqm, hqk⟩ := SchemaDescriptor.mem_of_property? hq
  obtain ⟨htypes, -⟩ := hall s hs super hsuper p hpm q hqm (hpk.trans hqk.symm)
  -- the types differ, so the schema itself shows another type in the graph
  rw [← not_iff_not] at htypes
  obtain ⟨own, hown⟩ := not_forall.1 (htypes.1 hne)
  rw [Classical.not_imp, hname, hpk] at hown
  exact ⟨b, hb, g, hg, hall, s, super, p, q, own, hs, hname, hsuper, hp, hq, hne, hown⟩

/-- The member overrides a text by a number. -/
theorem redeclaringMember_not_keepsTypes : ∃ b s super p q,
    redeclaringMember.build .standard = .ok b ∧ s ∈ b.model.schemas.values ∧
      b.model.supertypeOf? s = some super ∧ s.property? "x" = some p ∧
      super.property? "x" = some q ∧ p.modifier = .override ∧ p.type = .primitive .int32 ∧
      q.type = .primitive .string ∧ ¬s.KeepsTypes super := by
  obtain ⟨b, s, super, p, q, hb, hs, -, hsuper, hp, hq, hmodifier, hpt, hqt⟩ :=
    redeclaringMember_built
  refine ⟨b, s, super, p, q, hb, hs, hsuper, hp, hq, hmodifier, hpt, hqt, ?_⟩
  intro hkeeps
  obtain ⟨hpm, hpk⟩ := SchemaDescriptor.mem_of_property? hp
  obtain ⟨hqm, hqk⟩ := SchemaDescriptor.mem_of_property? hq
  have htype := hkeeps p hpm q hqm (hpk.trans hqk.symm)
  rw [hpt, hqt] at htype
  cases htype

end SchemaModel
