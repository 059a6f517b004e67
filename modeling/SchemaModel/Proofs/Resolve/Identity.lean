import Mathlib.Data.List.Nodup
import SchemaModel.Proofs.Computed
import SchemaModel.Proofs.Resolve.Names

/-!
A name identifies a schema. In the last pass two schemas have one name exactly if they stand at one
position, no inline schema is named like a component, and so the graph, which goes by names, has
one entry for each resolved position (`Document.resolve_identifies`).
-/

namespace SchemaModel

section

variable [Libraries]

namespace Resolver

/-- Names tell the schemas of a resolver apart, and the graph has each of them once, under its own
name. -/
structure Identifies (d : Document) (r : Resolver) (g : Graph) : Prop where
  pointer : ∀ p s, (p, s) ∈ r.resolved → s.pointer = p
  name_iff : ∀ p s q t, (p, s) ∈ r.resolved → (q, t) ∈ r.resolved → (s.name = t.name ↔ p = q)
  inline : ∀ p s, (p, s) ∈ r.resolved → s.inline → s.name ∉ d.names
  entry : ∀ name s, g.schemas.find? name = some s ↔ s.name = name ∧ (s.pointer, s) ∈ r.resolved
  known : ∀ p, p ∈ g.schemas.values.map Resolved.pointer ↔ r.Knows p
  once : (g.schemas.values.map Resolved.pointer).Nodup

variable {scope : Scope} {order : List String} {r : Resolver} {p : Pointer} {s t : Resolved}

theorem Complete.pointer_eq (hr : Complete scope order r) (hs : (p, s) ∈ r.resolved) :
    s.pointer = p := by
  obtain ⟨site, shape, -, -, he⟩ := hr.mem_resolved_iff.1 hs
  cases he
  rfl

theorem Complete.resolved_eq (hr : Complete scope order r) (hs : (p, s) ∈ r.resolved)
    (ht : (p, t) ∈ r.resolved) : s = t :=
  hr.singleValued p.text s t (List.mem_map.2 ⟨_, hs, rfl⟩) (List.mem_map.2 ⟨_, ht, rfl⟩)

/-- The name of an inline schema is made distinct from all components. -/
theorem Complete.inline_notMem (hr : Complete scope order r) (ha : scope.AvoidsComponents)
    (hs : (p, s) ∈ r.resolved) (hi : s.inline) : s.name ∉ scope.document.names := by
  obtain ⟨site, shape, hv, -, he⟩ := hr.mem_resolved_iff.1 hs
  cases he
  obtain ⟨base, hname⟩ := hv.grounded.called hi
  have hnew := ha.inlineName_notMem base site.pointer
  rw [← hname] at hnew
  exact hnew

theorem Complete.entry_iff (hr : Complete scope order r) (hn : r.inlineRenames = [])
    {name : String} : r.toGraph.schemas.find? name = some s ↔
      s.name = name ∧ (s.pointer, s) ∈ r.resolved := by
  rw [hr.find?_toGraph hn, hr.mem_resolved_iff]
  constructor
  · rintro ⟨site, shape, hv, hshape, rfl, rfl⟩
    exact ⟨rfl, site, shape, hv, hshape, rfl⟩
  · rintro ⟨rfl, site, shape, hv, hshape, he⟩
    rw [Prod.mk.injEq] at he
    obtain ⟨-, rfl⟩ := he
    exact ⟨site, shape, hv, hshape, rfl, rfl⟩

theorem Complete.identifies (hr : Complete scope order r) (ha : scope.AvoidsComponents)
    (hn : r.inlineRenames = []) : Identifies scope.document r r.toGraph where
  pointer p s hs := hr.pointer_eq hs
  name_iff p s q t hs ht := by
    constructor
    · exact position_eq_of_name hn hs ht
    · rintro rfl
      rw [hr.resolved_eq hs ht]
  inline p s hs hi := hr.inline_notMem ha hs hi
  entry name s := hr.entry_iff hn
  known p := by
    rw [List.mem_map]
    constructor
    · rintro ⟨s, hs, rfl⟩
      obtain ⟨name, hf⟩ := NameMap.mem_values_iff.1 hs
      exact ⟨s, ((hr.entry_iff hn).1 hf).2⟩
    · rintro ⟨s, hs⟩
      have hp := hr.pointer_eq hs
      rw [← hp] at hs
      exact ⟨s, NameMap.mem_values_iff.2 ⟨s.name, (hr.entry_iff hn).2 ⟨rfl, hs⟩⟩, hp⟩
  once := by
    have hentries : r.toGraph.schemas.toList.Nodup := List.Nodup.of_map _ (NameMap.keys_nodup _)
    rw [NameMap.values, List.map_map]
    apply hentries.map_on
    -- entries of one position are one schema, which stands under its own name
    rintro ⟨name, s⟩ hs ⟨other, t⟩ ht he
    obtain ⟨rfl, hsr⟩ := (hr.entry_iff hn).1 (NameMap.mem_toList_iff.1 hs)
    obtain ⟨rfl, htr⟩ := (hr.entry_iff hn).1 (NameMap.mem_toList_iff.1 ht)
    have hp : s.pointer = t.pointer := he
    rw [hp] at hsr
    rw [hr.resolved_eq hsr htr]

end Resolver

/-- In every graph that is found a name stands for one position and a position for one schema. -/
theorem Document.resolve_identifies {d : Document} {order : List String} {g : Graph}
    (h : d.resolve order = .ok g) :
    ∃ r, Resolver.LastPass d order r ∧ g = r.toGraph ∧ Resolver.Identifies d r g := by
  obtain ⟨r, hlast, rfl⟩ := lastPass_of_resolve h
  obtain ⟨renames, hrounds, hp, hn⟩ := hlast
  have hidentifies := (Resolver.pass_complete hp).identifies hrounds.avoidsComponents hn
  exact ⟨r, ⟨renames, hrounds, hp, hn⟩, rfl, hidentifies⟩

end

/-- Two objects inside different components, both called `ABC` at first. -/
def sharedName : Document :=
  let object (properties : List (String × Node)) : Node :=
    .schema { Schema.empty with type := some (.single .object), properties }
  let inner := object [("k", .schema { Schema.empty with type := some (.single .string) })]
  ⟨"3.0.3", default, [("A", object [("bC", inner)]), ("AB", object [("c", inner)])], by decide⟩

theorem sharedName_resolves : ∃ g, sharedName.resolve ["AB", "A"] = .ok g ∧
    g.schemas.keys = ["A", "AB", "ABC", "ABC2"] := by
  have hrun : (sharedName.resolve ["AB", "A"]).toOption.map (fun g => g.schemas.keys) =
      some ["A", "AB", "ABC", "ABC2"] := by cbv
  exact toOption_map_eq_some_iff.1 hrun

theorem resolve_identifies_shared_name : ∃ g r, sharedName.resolve ["AB", "A"] = .ok g ∧
    g.schemas.keys = ["A", "AB", "ABC", "ABC2"] ∧
      Resolver.LastPass sharedName ["AB", "A"] r ∧ g = r.toGraph ∧
        Resolver.Identifies sharedName r g := by
  obtain ⟨g, hg, hkeys⟩ := sharedName_resolves
  obtain ⟨r, hlast, hgraph, hidentifies⟩ := Document.resolve_identifies hg
  exact ⟨g, r, hg, hkeys, hlast, hgraph, hidentifies⟩

end SchemaModel
