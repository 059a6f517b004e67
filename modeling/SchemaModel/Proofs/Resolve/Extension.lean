import Mathlib.Logic.Relation
import SchemaModel.Proofs.Computed
import SchemaModel.Proofs.Resolve.Inclusion
import SchemaModel.Proofs.Resolve.Parts

/-!
What a schema inherits from the components that it names in `allOf`. Merging takes the schema of
such a component, and so all that its parts declare and require. The shape of the component is
that of its object schema, which is another one if the component is a union with `null`: then the
schema inherits what is beside `null` only as far as its own parts have it
(`Document.resolve_inherits_iff`).
-/

namespace SchemaModel

open Relation

/-- What `parent` declares and requires, `o` does, with the same types. -/
structure ObjectShape.Inherits (o parent : ObjectShape) : Prop where
  declares : parent.Within o
  requires : ∀ key, parent.required.contains key → o.required.contains key

namespace Document

variable {d : Document} {site parent core : Site}

/-- The schema names the component in `allOf`, itself or in an inline branch. -/
inductive Extends (d : Document) : Site → Site → Prop where
  | direct {site : Site} {index : Nat} {target name : String} {t : Schema}
      (branch : site.schema.allOf[index]? = some (.ref target))
      (leads : d.resolveRef site.name target = .ok name)
      (definition : d.definition? name = some t) : Extends d site (.ofComponent name t)
  | inside {site parent : Site} {index : Nat} {t : Schema}
      (branch : site.schema.allOf[index]? = some (.schema t))
      (named : Extends d (site.branch index t) parent) : Extends d site parent

theorem branch_of_opens {index : Nat} {node : Node} (hn : site.schema.allOf[index]? = some node)
    (ho : d.Opens site index node parent) : d.Branch site parent := by
  rw [← Nat.zero_add index] at ho
  exact ⟨index, node, hn, ho⟩

theorem Extends.part (h : d.Extends site parent) : ReflTransGen d.Branch site parent := by
  induction h with
  | direct branch leads definition =>
    exact .single (branch_of_opens branch (.component leads definition))
  | inside branch named ih => exact .head (branch_of_opens branch (.inline _)) ih

theorem Extends.component (h : d.Extends site parent) : ∃ name t, d.Canonical name ∧
    d.definition? name = some t ∧ parent = .ofComponent name t := by
  induction h with
  | direct branch leads definition =>
    exact ⟨_, _, canonical_of_resolveRef leads, definition, rfl⟩
  | inside branch named ih => exact ih

/-- An object schema is its own. -/
theorem ObjectOf.eq (h : d.ObjectOf site core) (hc : site.schema.category = .object) :
    core = site := by
  rcases h.1.cases_head with rfl | ⟨next, hnext, -⟩
  · rfl
  · cases hnext with
    | inline category => rw [hc] at category; cases category
    | component category => rw [hc] at category; cases category

end Document

section

variable [Libraries]

namespace Scope

variable {scope : Scope} {core other : Site}

/-- The parts of `core` declare and require what those of `other` do, with the same types. -/
structure Covers (scope : Scope) (core other : Site) : Prop where
  declares : ∀ p, scope.DeclaredIn other p → ∃ q, scope.DeclaredIn core q ∧ q.key = p.key ∧
    q.type = p.type
  requires : ∀ key, scope.document.Requires other key → scope.document.Requires core key

theorem covers_of_part (h : ReflTransGen scope.document.Branch core other) :
    scope.Covers core other where
  declares := by
    rintro p ⟨part, hpart, hp⟩
    exact ⟨p, ⟨part, h.trans hpart, hp⟩, rfl, rfl⟩
  requires := by
    rintro key ⟨part, hpart, hkey⟩
    exact ⟨part, h.trans hpart, hkey⟩

/-- An object inherits from another one exactly if its parts cover those of the other one. -/
theorem inherits_iff_covers {o parent : ObjectShape}
    (ho : o.Collects (scope.DeclaredIn core) (scope.document.Requires core))
    (hp : parent.Collects (scope.DeclaredIn other) (scope.document.Requires other)) :
    o.Inherits parent ↔ scope.Covers core other := by
  constructor
  · rintro ⟨hdeclares, hrequires⟩
    refine ⟨?_, fun key hkey => (ho.requires key).1 (hrequires key ((hp.requires key).2 hkey))⟩
    intro p hdeclared
    obtain ⟨q, hq, hqp⟩ := hp.keeps p hdeclared
    obtain ⟨r, hr, hrq⟩ := hdeclares _ q hq
    have hkey : r.key = p.key := by simpa using List.find?_some hr
    exact ⟨r, ho.declares r (List.mem_of_find?_eq_some hr), hkey, hrq.trans hqp⟩
  · rintro ⟨hdeclares, hrequires⟩
    refine ⟨?_, fun key hkey => (ho.requires key).2 (hrequires key ((hp.requires key).1 hkey))⟩
    intro key p hfind
    have hkey : p.key = key := by simpa using List.find?_some hfind
    obtain ⟨q, hq, hqk, hqp⟩ := hdeclares p (hp.declares p (List.mem_of_find?_eq_some hfind))
    obtain ⟨r, hr, hrq⟩ := ho.keeps q hq
    rw [hqk, hkey] at hr
    exact ⟨r, hr, hrq.trans hqp⟩

end Scope

namespace Resolver

variable {scope : Scope} {order : List String} {r : Resolver} {o : ObjectShape}

/-- The object that the graph has for a visited site is its shape. -/
theorem Complete.hasShape_of_object (ha : scope.AvoidsComponents) (hr : Complete scope order r)
    (hn : r.inlineRenames = []) {site : Site} (hv : scope.Visits order site)
    (ho : r.toGraph.object? site.name = some o) : scope.HasShape site (.object o) := by
  obtain ⟨s, hs, hshape⟩ := Graph.object?_eq_some ho
  obtain ⟨shape, hhas, hfound⟩ := hr.has_of_visits hn hv
  rw [canonical_toGraph (hr.unaliased ha hv), hfound, Option.some.injEq] at hs
  rw [← hshape, ← hs]
  exact hhas

/-- A component that the graph has as an object is visited. -/
theorem Complete.visits_of_object (ha : scope.AvoidsComponents) (hr : Complete scope order r)
    (hn : r.inlineRenames = []) {name : String} {s : Schema}
    (hc : scope.document.Canonical name) (hs : scope.document.definition? name = some s)
    (ho : r.toGraph.object? name = some o) : scope.Visits order (.ofComponent name s) := by
  obtain ⟨t, ht, -⟩ := Graph.object?_eq_some ho
  rw [canonical_toGraph (hr.find?_aliases_of_canonical hc)] at ht
  obtain ⟨site, shape, hv, -, rfl, -⟩ := (hr.find?_toGraph hn).1 ht
  -- an inline schema would be called like no component
  have hcomponent : site.inline = false := by
    cases hi : site.inline with
    | false => rfl
    | true =>
      obtain ⟨base, hb⟩ := hv.grounded.called hi
      have hnew := ha.inlineName_notMem base site.pointer
      rw [← hb] at hnew
      exact absurd hc.mem_names hnew
  have hsite : site = .ofComponent site.name s :=
    hv.grounded.site_eq (Scope.grounded_ofComponent hc hs) (hv.grounded.component hcomponent)
  rw [← hsite]
  exact hv

end Resolver

/-- A schema inherits the object of a component that it names in `allOf` exactly if the parts of
its own object cover those of the component's, which they do if both are object schemas. -/
theorem Document.resolve_inherits_iff {d : Document} {order : List String} {g : Graph}
    (h : d.resolve order = .ok g) :
    ∃ r, Resolver.LastPass d order r ∧ g = r.toGraph ∧
      ∀ site parent o inherited, r.scope.Visits order site → d.Extends site parent →
        g.object? site.name = some o → g.object? parent.name = some inherited →
        (∃ core other, d.ObjectOf site core ∧ d.ObjectOf parent other ∧
          (o.Inherits inherited ↔ r.scope.Covers core other)) ∧
        (site.schema.category = .object → parent.schema.category = .object →
          o.Inherits inherited) := by
  obtain ⟨r, hlast, rfl⟩ := lastPass_of_resolve h
  refine ⟨r, hlast, rfl, ?_⟩
  obtain ⟨renames, hrounds, hpass, hn⟩ := hlast
  have ha := hrounds.avoidsComponents
  have hr := Resolver.pass_complete hpass
  rw [hr.sound.scope_eq]
  intro site parent o inherited hv hextends ho hinherited
  obtain ⟨name, t, hcanonical, ht, rfl⟩ := hextends.component
  have hparent := hr.visits_of_object ha hn hcanonical ht hinherited
  obtain ⟨core, hcore, hcollects⟩ := (hr.hasShape_of_object ha hn hv ho).collects
  obtain ⟨other, hother, hcollects'⟩ := (hr.hasShape_of_object ha hn hparent hinherited).collects
  have hiff := Scope.inherits_iff_covers hcollects hcollects'
  refine ⟨⟨core, other, hcore, hother, hiff⟩, ?_⟩
  intro hobject hobject'
  rw [hcore.eq hobject, hother.eq hobject'] at hiff
  exact hiff.2 (Scope.covers_of_part hextends.part)

end

/-- A schema that names an object or null in `allOf`. -/
def nullableParent : Document :=
  let text : Node := .schema { Schema.empty with type := some (.single .string) }
  let null : Node := .schema { Schema.empty with type := some (.single .null) }
  ⟨"3.0.3", default,
    [("P", .schema { Schema.empty with
        oneOf := [.schema { Schema.empty with
          type := some (.single .object)
          properties := [("a", text)]
          required := ["a"] }, null] }),
      ("S", .schema { Schema.empty with
        allOf := [.ref "#/components/schemas/P"]
        properties := [("b", text)] })], by decide⟩

theorem nullableParent_resolves :
    ∃ g o inherited, nullableParent.resolve ["P", "S"] = .ok g ∧ g.object? "S" = some o ∧
      g.object? "P" = some inherited ∧ o.property? "a" = none ∧
        (inherited.property? "a").isSome := by
  have hobjects : ((nullableParent.resolve ["P", "S"]).toOption.bind fun g =>
      (g.object? "S").bind fun o => (g.object? "P").map fun inherited =>
        ((o.property? "a").isNone, (inherited.property? "a").isSome)) = some (true, true) := by
    cbv
  obtain ⟨g, hg, hobjects⟩ := toOption_bind_eq_some_iff.1 hobjects
  obtain ⟨o, ho, hobjects⟩ := Option.bind_eq_some_iff.1 hobjects
  obtain ⟨inherited, hinherited, hkeys⟩ := Option.map_eq_some_iff.1 hobjects
  obtain ⟨hmissing, hdeclared⟩ := Prod.mk.inj hkeys
  exact ⟨g, o, inherited, hg, ho, hinherited, Option.isNone_iff_eq_none.1 hmissing, hdeclared⟩

theorem resolve_inherits_iff_nullable_parent :
    ∃ g, nullableParent.resolve ["P", "S"] = .ok g ∧
      ∃ r, Resolver.LastPass nullableParent ["P", "S"] r ∧ g = r.toGraph ∧
        ∀ site parent o inherited, r.scope.Visits ["P", "S"] site →
          nullableParent.Extends site parent → g.object? site.name = some o →
          g.object? parent.name = some inherited →
          (∃ core other, nullableParent.ObjectOf site core ∧
            nullableParent.ObjectOf parent other ∧
            (o.Inherits inherited ↔ r.scope.Covers core other)) ∧
          (site.schema.category = .object → parent.schema.category = .object →
            o.Inherits inherited) := by
  obtain ⟨g, -, -, hg, -⟩ := nullableParent_resolves
  exact ⟨g, hg, Document.resolve_inherits_iff hg⟩

/-- What is beside `null` is not inherited. -/
theorem nullableParent_not_inherits :
    ∃ s t g o inherited, nullableParent.definition? "S" = some s ∧ s.category = .object ∧
      nullableParent.Extends (.ofComponent "S" s) (.ofComponent "P" t) ∧
      nullableParent.resolve ["P", "S"] = .ok g ∧ g.object? "S" = some o ∧
      g.object? "P" = some inherited ∧ ¬o.Inherits inherited := by
  have hs : ((nullableParent.definition? "S").map fun s => (s.category, s.allOf[0]?)) =
      some (.object, some (.ref "#/components/schemas/P")) := by cbv
  have ht : (nullableParent.definition? "P").isSome := by cbv
  have hleads : nullableParent.resolveRef "S" "#/components/schemas/P" = .ok "P" := by cbv
  obtain ⟨s, hs, hschema⟩ := Option.map_eq_some_iff.1 hs
  obtain ⟨hcategory, hbranch⟩ := Prod.mk.inj hschema
  obtain ⟨t, ht⟩ := Option.isSome_iff_exists.1 ht
  obtain ⟨g, o, inherited, hg, ho, hinherited, hmissing, hdeclared⟩ := nullableParent_resolves
  refine ⟨s, t, g, o, inherited, hs, hcategory, .direct hbranch hleads ht, hg, ho, hinherited, ?_⟩
  rintro ⟨hdeclares, -⟩
  obtain ⟨p, hp⟩ := Option.isSome_iff_exists.1 hdeclared
  obtain ⟨q, hq, -⟩ := hdeclares "a" p hp
  rw [hmissing] at hq
  cases hq

end SchemaModel
