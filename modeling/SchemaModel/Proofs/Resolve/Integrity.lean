import SchemaModel.Proofs.Resolve.Names
import SchemaModel.Proofs.Resolve.Typing

/-!
What a resolved graph guarantees (`Graph.Intact`): every name in it is that of a schema, names in
types are those of enums and objects, and what stands inside an object is found under the name
that was made for it.
-/

namespace SchemaModel

variable [Libraries]

/-- The schema that a property refers to by its kind. -/
def PropertyKind.target? : PropertyKind → Option String
  | .objectRef target => some target
  | .objectInlined target => some target
  | _ => none

namespace Graph

def Has (g : Graph) (name : String) : Prop := ∃ s, g.schemas.find? name = some s

/-- The name of an enum or object. -/
def HasNamed (g : Graph) (name : String) : Prop :=
  ∃ s, g.schemas.find? name = some s ∧ s.shape.isNamed

structure Intact (g : Graph) : Prop where
  name_eq : ∀ name s, g.schemas.find? name = some s → s.name = name
  unaliased : ∀ name, g.Has name → g.aliases.find? name = none
  target : ∀ name other, g.aliases.find? name = some other → g.Has other
  types : ∀ name s, g.schemas.find? name = some s → ∀ type ∈ s.shape.types, ∀ other,
    type.element.named? = some other → g.HasNamed other
  inside : ∀ name s o, g.schemas.find? name = some s → s.shape = .object o → ∀ i ∈ o.inlines,
    ∃ t, g.schemas.find? i.name = some t ∧ t.pointer = i.pointer ∧ t.inline ∧ t.shape.isNamed
  branches : ∀ name s o, g.schemas.find? name = some s → s.shape = .object o →
    ∀ other ∈ o.allOfRefs, g.Has other
  members : ∀ name s o, g.schemas.find? name = some s → s.shape = .object o →
    ∀ other ∈ o.unionMembers, g.Has other
  keys : ∀ name s o, g.schemas.find? name = some s → s.shape = .object o →
    (o.properties.map ResolvedProperty.key).Nodup
  kinds : ∀ name s o, g.schemas.find? name = some s → s.shape = .object o →
    ∀ p ∈ o.properties, ∀ other, p.kind.target? = some other → p.type = .named other
  declared : ∀ name s o, g.schemas.find? name = some s → s.shape = .object o →
    ∀ p ∈ o.properties, p.kind ≠ .additionalCapture

end Graph

theorem Scope.propertyKind_target {owner key : String} {node : Node} {type : TypeRef}
    {effective : Schema} {kind : PropertyKind} {name : String}
    (h : (propertyKind owner key node type effective).outcome = .ok kind)
    (hk : kind.target? = some name) : type = .named name := by
  unfold propertyKind at h
  split at h
  · split at h
    · cases h
      cases hk
    · split at h
      · cases h
        cases hk
        rfl
      · cases h
        cases hk
        rfl
  · cases h
    cases hk
  · cases h
    cases hk
  · simp only [Traced.outcome_bind_eq_ok_iff, Traced.outcome_pure] at h
    obtain ⟨constraints, -, h⟩ := h
    cases h
    cases hk

/-- No declared property is a capture. -/
theorem Scope.propertyKind_ne_capture {owner key : String} {node : Node} {type : TypeRef}
    {effective : Schema} :
    (propertyKind owner key node type effective).outcome ≠ .ok .additionalCapture := by
  intro h
  unfold propertyKind at h
  split at h
  · split at h
    · cases h
    · split at h <;> cases h
  · cases h
  · cases h
  · simp only [Traced.outcome_bind_eq_ok_iff, Traced.outcome_pure] at h
    obtain ⟨constraints, -, h⟩ := h
    cases h

namespace Resolver

variable {scope : Scope} {order : List String} {r : Resolver}

/-- A followed name is a component, and what it leads to is no alias. -/
theorem Complete.find?_aliases_of_canonical (hr : Complete scope order r) {name : String}
    (h : scope.document.Canonical name) : r.aliases.find? name = none := by
  cases ha : r.aliases.find? name with
  | none => rfl
  | some target =>
    obtain ⟨-, ht, hne⟩ := hr.find?_aliases.1 ha
    rw [h.followAlias, Except.ok.injEq] at ht
    exact absurd ht.symm hne

/-- What is not a component has no alias. -/
theorem Complete.find?_aliases_of_notMem (hr : Complete scope order r) {name : String}
    (h : name ∉ scope.document.names) : r.aliases.find? name = none := by
  cases ha : r.aliases.find? name with
  | none => rfl
  | some target =>
    obtain ⟨-, ht, -⟩ := hr.find?_aliases.1 ha
    cases hf : scope.document.find? name with
    | none =>
      rw [Document.followAlias, Document.followFrom_eq, hf] at ht
      cases ht
    | some node => exact absurd (Document.mem_names_of_find hf) h

omit [Libraries] in
/-- A name without an alias stands for itself. -/
theorem canonical_toGraph {name : String} (h : r.aliases.find? name = none) :
    r.toGraph.canonical name = name := by
  rw [Graph.canonical, show r.toGraph.aliases = r.aliases from rfl, h]
  rfl

/-- A component that is met is no alias, and an inline schema is called like no component. -/
theorem Complete.unaliased (ha : scope.AvoidsComponents) (hr : Complete scope order r)
    {site : Site} (hv : scope.Visits order site) : r.aliases.find? site.name = none := by
  cases hi : site.inline with
  | false => exact hr.find?_aliases_of_canonical (hv.grounded.canonical hi)
  | true =>
    obtain ⟨base, hb⟩ := hv.grounded.called hi
    apply hr.find?_aliases_of_notMem
    rw [hb]
    exact ha.inlineName_notMem base _

section Intact

variable (ha : scope.AvoidsComponents) (hr : Complete scope order r) (hn : r.inlineRenames = [])
  (hall : ∀ name ∈ scope.document.names, name ∈ order)

include hr hn

theorem Complete.has_of_visits {site : Site} (hv : scope.Visits order site) :
    ∃ shape, scope.HasShape site shape ∧
      r.toGraph.schemas.find? site.name = some (site.resolved shape) := by
  obtain ⟨shape, hs⟩ := hr.resolvable.shapes site hv
  exact ⟨shape, hs, (hr.find?_toGraph hn).2 ⟨site, shape, hv, hs, rfl, rfl⟩⟩

theorem Complete.hasNamed_of_hosted {name : String} (h : scope.Hosted order name) :
    r.toGraph.HasNamed name := by
  obtain ⟨site, shape, hv, hs, rfl, hnamed⟩ := h
  exact ⟨site.resolved shape, (hr.find?_toGraph hn).2 ⟨site, shape, hv, hs, rfl, rfl⟩, hnamed⟩

/-- An object of the graph is a merged one, and what is inside it is visited. -/
theorem Complete.object_of_find? {name : String} {s : Resolved} {o : ObjectShape}
    (hf : r.toGraph.schemas.find? name = some s) (ho : s.shape = .object o) :
    scope.Sourced o ∧ ∀ i ∈ o.inlines, scope.Visits order (.ofInline i) := by
  obtain ⟨site, shape, hv, hs, -, rfl⟩ := (hr.find?_toGraph hn).1 hf
  have hshape : shape = .object o := ho
  subst hshape
  obtain ⟨inlines, horigin, hinside⟩ := hs.origin hv
  cases horigin with
  | object sourced => exact ⟨sourced, hinside⟩
  | elements elements typed placed => rcases elements with h | h <;> cases h
  | nameless flat types => cases flat

include hall

theorem Complete.has_of_canonical {name : String} (h : scope.document.Canonical name) :
    r.toGraph.Has name := by
  obtain ⟨s, hs, -⟩ := h.definition
  have hv : scope.Visits order (.ofComponent name s) :=
    .component (hall _ h.mem_names) (h.followAlias name) hs
  obtain ⟨shape, -, hf⟩ := hr.has_of_visits hn hv
  exact ⟨_, hf⟩

include ha

theorem Complete.intact : r.toGraph.Intact where
  name_eq name s hf := by
    obtain ⟨site, shape, -, -, rfl, rfl⟩ := (hr.find?_toGraph hn).1 hf
    rfl
  unaliased name := by
    rintro ⟨s, hf⟩
    obtain ⟨site, shape, hv, -, rfl, rfl⟩ := (hr.find?_toGraph hn).1 hf
    exact hr.unaliased ha hv
  target name other h := by
    obtain ⟨-, ht, -⟩ := hr.find?_aliases.1 h
    exact hr.has_of_canonical hn hall (Document.canonical_of_followAlias ht)
  types name s hf type hm other hother := by
    obtain ⟨site, shape, hv, hs, -, rfl⟩ := (hr.find?_toGraph hn).1 hf
    obtain ⟨inlines, horigin, hinside⟩ := hs.origin hv
    have hhosted := horigin.hosted hr.resolvable hall hinside type hm other hother
    exact hr.hasNamed_of_hosted hn hhosted
  inside name s o hf ho i hi := by
    have hv := (hr.object_of_find? hn hf ho).2 i hi
    obtain ⟨shape, hs, hfound⟩ := hr.has_of_visits hn hv
    obtain ⟨t, ht, hnamed⟩ := hr.hasNamed_of_hosted hn (hv.inline_hosted hr.resolvable)
    have he : r.toGraph.schemas.find? i.name = some ((Site.ofInline i).resolved shape) := hfound
    rw [ht, Option.some.injEq] at he
    subst he
    exact ⟨_, ht, rfl, rfl, hnamed⟩
  branches name s o hf ho other hm :=
    hr.has_of_canonical hn hall ((hr.object_of_find? hn hf ho).1.branches other hm)
  members name s o hf ho other hm :=
    hr.has_of_canonical hn hall ((hr.object_of_find? hn hf ho).1.members other hm)
  keys name s o hf ho := (hr.object_of_find? hn hf ho).1.nodup
  kinds name s o hf ho p hp other hother := by
    obtain ⟨owner, pointer, t, node, -, -, h⟩ :=
      (hr.object_of_find? hn hf ho).1.declares p hp
    obtain ⟨effective, -, -, -, hk, -⟩ := Scope.resolveProperty_eq_ok h
    exact Scope.propertyKind_target hk hother
  declared name s o hf ho p hp hcapture := by
    obtain ⟨owner, pointer, t, node, -, -, h⟩ :=
      (hr.object_of_find? hn hf ho).1.declares p hp
    obtain ⟨effective, -, -, -, hk, -⟩ := Scope.resolveProperty_eq_ok h
    exact Scope.propertyKind_ne_capture (hcapture ▸ hk)

end Intact

end Resolver

theorem Document.resolve_intact {d : Document} {order : List String} {g : Graph}
    (hall : ∀ name ∈ d.names, name ∈ order) (h : d.resolve order = .ok g) : g.Intact := by
  obtain ⟨renames, r, ha, hr, hn, rfl⟩ := resolve_eq_ok h
  exact hr.intact ha hn hall

end SchemaModel
