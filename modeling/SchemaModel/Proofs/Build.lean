import SchemaModel.Proofs.Classify
import SchemaModel.Proofs.Coercion
import SchemaModel.Proofs.Resolve.Integrity

/-!
A model and its graph: the model has a descriptor under a name exactly if the graph has a schema
under it, and the descriptor is the one made from this schema (`find?_model`). Its properties are
declared by objects of the graph (`propertyOrigin`), its links are declared candidates.
-/

namespace SchemaModel

theorem Classifier.descriptor_eq_ok [Libraries] {c : Classifier} {s : Resolved}
    {d : SchemaDescriptor} (h : (c.descriptor s).outcome = .ok d) :
    ∃ properties, (c.classify s.name).outcome = .ok properties ∧
      d = ⟨s.name, s.pointer.text, c.kindOf s, properties, c.hierarchy.parent? s.name,
        c.hierarchy.childrenOf s.name, s.description, s.inline⟩ := by
  unfold descriptor at h
  simp only [Traced.outcome_bind_eq_ok_iff, Traced.outcome_pure] at h
  obtain ⟨properties, hp, h⟩ := h
  cases h
  exact ⟨properties, hp, rfl⟩

def PropertyDescriptor.literal? (p : PropertyDescriptor) : Option Literal :=
  p.default.bind DefaultValue.literal?

namespace Graph

variable {g : Graph} {config : Config} {b : Built} {hierarchy : Hierarchy} {m : TypeModel}

section

variable [Libraries]

/-- What a build that succeeds consists of. -/
structure Builds (g : Graph) (config : Config) (hierarchy : Hierarchy) (m : TypeModel) : Prop where
  hierarchy_eq : g.hierarchy = .ok hierarchy
  aliases : m.aliases = g.aliases
  described : ∀ s ∈ g.schemas.values, ∃ d,
    (Classifier.descriptor ⟨g, hierarchy, config⟩ s).outcome = .ok d
  schemas : ∃ descriptors : List SchemaDescriptor,
    m.schemas = NameMap.ofList (descriptors.map fun d => (d.name, d)) ∧
    ∀ d, d ∈ descriptors ↔ ∃ s ∈ g.schemas.values,
      (Classifier.descriptor ⟨g, hierarchy, config⟩ s).outcome = .ok d

theorem build_eq_ok (h : g.build config = .ok b) :
    ∃ hierarchy, g.Builds config hierarchy b.model ∧ ∀ s ∈ g.schemas.values,
      ∀ w ∈ (Classifier.descriptor ⟨g, hierarchy, config⟩ s).warnings, w ∈ b.stats.warnings := by
  unfold build at h
  obtain ⟨hierarchy, hh, h⟩ := bind_eq_ok_iff.1 h
  obtain ⟨descriptors, hd, h⟩ := bind_eq_ok_iff.1 h
  cases h
  refine ⟨hierarchy, ?_, ?_⟩
  · rw [Traced.outcome_mapM] at hd
    exact ⟨hh, rfl, exists_of_mapM_eq_ok hd, descriptors, rfl, mem_of_mapM_eq_ok hd⟩
  · intro s hs w hw
    exact List.mem_append_right _ (List.mem_append_right _ (Traced.mem_warnings_mapM hd hs hw))

theorem Builds.find?_model (hb : g.Builds config hierarchy m) (hg : g.Intact) {name : String}
    {d : SchemaDescriptor} : m.schemas.find? name = some d ↔
      ∃ s, g.schemas.find? name = some s ∧
        (Classifier.descriptor ⟨g, hierarchy, config⟩ s).outcome = .ok d := by
  obtain ⟨descriptors, hm, hmem⟩ := hb.schemas
  have hname : ∀ name d, (name, d) ∈ descriptors.map (fun d => (d.name, d)) ↔
      ∃ s, g.schemas.find? name = some s ∧
        (Classifier.descriptor ⟨g, hierarchy, config⟩ s).outcome = .ok d := by
    intro name d
    simp only [List.mem_map, Prod.mk.injEq, hmem, NameMap.mem_values_iff]
    constructor
    · rintro ⟨d, ⟨s, ⟨other, hf⟩, hd⟩, rfl, rfl⟩
      obtain ⟨properties, -, rfl⟩ := Classifier.descriptor_eq_ok hd
      have hn := hg.name_eq other s hf
      exact ⟨s, hn ▸ hf, hd⟩
    · rintro ⟨s, hf, hd⟩
      refine ⟨d, ⟨s, ⟨name, hf⟩, hd⟩, ?_, rfl⟩
      obtain ⟨properties, -, rfl⟩ := Classifier.descriptor_eq_ok hd
      exact hg.name_eq name s hf
  -- no two schemas of the graph have one name, so no descriptor replaces another one
  have hsingle : SingleValued (descriptors.map fun d => (d.name, d)) := by
    intro other a a' ha ha'
    obtain ⟨s, hf, hd⟩ := (hname other a).1 ha
    obtain ⟨s', hf', hd'⟩ := (hname other a').1 ha'
    rw [hf, Option.some.injEq] at hf'
    subst hf'
    rw [hd, Except.ok.injEq] at hd'
    exact hd'
  rw [hm, NameMap.find?_ofList_of_singleValued hsingle, hname]

theorem Builds.has_model (hb : g.Builds config hierarchy m) (hg : g.Intact) {name : String}
    {s : Resolved} (hf : g.schemas.find? name = some s) :
    ∃ d, m.schemas.find? name = some d ∧
      (Classifier.descriptor ⟨g, hierarchy, config⟩ s).outcome = .ok d := by
  obtain ⟨d, hd⟩ := hb.described s (NameMap.mem_values_iff.2 ⟨name, hf⟩)
  exact ⟨d, (hb.find?_model hg).2 ⟨s, hf, hd⟩, hd⟩

end

theorem Intact.canonical_eq (hg : g.Intact) {name : String} (h : g.Has name) :
    g.canonical name = name := by
  rw [canonical, hg.unaliased name h]
  rfl

theorem object?_of_mem_supers (hg : g.Intact) {name : String} {o : ObjectShape} {x : Discriminator}
    (hm : (name, o, x) ∈ g.supers) : g.object? name = some o ∧ o.discriminator = some x := by
  obtain ⟨s, hs, ho, hx⟩ := mem_supers.1 hm
  rw [object?, get?, hg.canonical_eq ⟨s, hs⟩, hs]
  exact ⟨ho, hx⟩

/-- The properties that objects of the graph declare have the names of enums and objects in
their types, and their kinds refer to these. -/
theorem Intact.owned_type (hg : g.Intact) {p : ResolvedProperty} (hp : g.Owns p) {name : String}
    (hn : p.type.element.named? = some name) : g.HasNamed name := by
  obtain ⟨owner, o, ho, hm⟩ := hp
  obtain ⟨s, hs, hshape⟩ := object?_eq_some ho
  refine hg.types _ s hs p.type ?_ name hn
  rw [hshape]
  exact List.mem_append_left _ (List.mem_map.2 ⟨p, hm, rfl⟩)

theorem Intact.owned_kind (hg : g.Intact) {p : ResolvedProperty} (hp : g.Owns p) {name : String}
    (hn : p.kind.target? = some name) : p.type = .named name := by
  obtain ⟨owner, o, ho, hm⟩ := hp
  obtain ⟨s, hs, hshape⟩ := object?_eq_some ho
  exact hg.kinds _ s o hs hshape p hm name hn

theorem Intact.owned_ne_capture (hg : g.Intact) {p : ResolvedProperty} (hp : g.Owns p) :
    p.kind ≠ .additionalCapture := by
  obtain ⟨owner, o, ho, hm⟩ := hp
  obtain ⟨s, hs, hshape⟩ := object?_eq_some ho
  exact hg.declared _ s o hs hshape p hm

/-- The declaration of a discriminator is a property of an object of the graph. -/
theorem Intact.owned_declaration (hg : g.Intact) (hh : g.hierarchy = .ok hierarchy) (name : String)
    (d : Discrimination) (hd : hierarchy.discrimination? name = some d) :
    g.Owns d.declaration := by
  obtain ⟨o, x, hm, hdisc⟩ := discriminate_of_discrimination? hh hd
  obtain ⟨mapping, -, -, hdeclares⟩ := discriminate_eq_ok hdisc
  generalize d.declaredOnSuper = onSuper at hdeclares
  cases hdeclares with
  | onSuper found =>
    exact ⟨name, o, (object?_of_mem_supers hg hm).1, List.mem_of_find?_eq_some found⟩
  | onChildren none mem found all => exact owns_of_property? found

/-- Every visible property is one that an object of the graph declares. -/
theorem Builds.owned [Libraries] (hb : g.Builds config hierarchy m) (hg : g.Intact) {name : String}
    {p : ResolvedProperty}
    (hp : p ∈ (Classifier.visible ⟨g, hierarchy, config⟩ name).properties) : g.Owns p :=
  Classifier.mem_visibleAlong (c := ⟨g, hierarchy, config⟩)
    (hg.owned_declaration hb.hierarchy_eq) hp

theorem HasNamed.has {name : String} (h : g.HasNamed name) : g.Has name := by
  obtain ⟨s, hs, -⟩ := h
  exact ⟨s, hs⟩

theorem Intact.canonical_canonical (hg : g.Intact) (name : String) :
    g.canonical (g.canonical name) = g.canonical name := by
  cases ha : g.aliases.find? name with
  | none =>
    have hn : g.canonical name = name := by rw [canonical, ha]; rfl
    rw [hn, hn]
  | some target =>
    have hn : g.canonical name = target := by rw [canonical, ha]; rfl
    rw [hn]
    exact hg.canonical_eq (hg.target name target ha)

theorem Intact.has_of_mappingTarget (hg : g.Intact) {schema target name : String}
    (h : g.mappingTarget schema target = .ok name) : g.Has name := by
  have hend : ∀ other, (if (g.get? (g.canonical other)).isSome then
      (Except.ok (g.canonical other) : Except ModelError String)
      else .error (.unresolvable schema target .dangling)) = .ok name → g.Has name := by
    intro other h
    split at h
    · rename_i hs
      cases h
      obtain ⟨s, hs⟩ := Option.isSome_iff_exists.1 hs
      rw [get?, hg.canonical_canonical] at hs
      exact ⟨s, hs⟩
    · cases h
  unfold mappingTarget at h
  dsimp only at h
  split at h
  · split at h
    · exact hend _ h
    · cases h
  · exact hend _ h

theorem has_of_mem_supers {name : String} {o : ObjectShape} {d : Discriminator}
    (h : (name, o, d) ∈ g.supers) : g.Has name := by
  obtain ⟨s, hs, -⟩ := mem_supers.1 h
  exact ⟨s, hs⟩

/-- Both ends of a declared link are schemas of the graph. -/
theorem Candidate.has {schema super : String} (h : g.Candidate schema super) (hg : g.Intact) :
    g.Has schema ∧ g.Has super := by
  cases h with
  | branch discriminated found object mem named =>
    exact ⟨⟨_, found⟩, has_of_mem_supers discriminated⟩
  | member discriminated mem named distinct =>
    obtain ⟨s, hs, ho, -⟩ := mem_supers.1 discriminated
    have href := hg.members _ s _ hs (Shape.eq_of_object? ho) _ mem
    rw [hg.canonical_eq href] at named
    exact ⟨named ▸ href, has_of_mem_supers discriminated⟩
  | mapped discriminated mem target distinct =>
    exact ⟨hg.has_of_mappingTarget target, has_of_mem_supers discriminated⟩

variable [Libraries]

/-- Where a property of a descriptor comes from: from the declaration of a property, or from that
of undeclared properties. -/
inductive PropertyOrigin (c : Classifier) (name : String) (x : PropertyDescriptor) : Prop where
  | declared {p : ResolvedProperty} (owned : c.graph.Owns p) (key : x.key = p.key)
      (kind : x.kind = p.kind) (type : x.type = p.type)
      (discriminator : (c.ancestorDiscrimination? name p.key).isSome → x.isDiscriminator)
      (literal : ∀ literal, x.literal? = some literal →
        ((c.graph.coerce name p).outcome = .ok (some literal) ∧
          ∀ d key, ¬c.Fixed name p.key d key) ∨
        ∃ d key, c.Fixed name p.key d key ∧ literal = key.literal d.descriptor.enumType)
  | captured {o : ObjectShape} {a : AdditionalType} (object : c.graph.object? name = some o)
      (additional : o.additional = some a) (kind : x.kind = .additionalCapture)
      (type : x.type = .map a.type) (discriminator : x.isDiscriminator = false)
      (literal : x.literal? = some .emptyMap)

theorem Builds.propertyOrigin (hb : g.Builds config hierarchy m) (hg : g.Intact)
    {name : String} {properties : List PropertyDescriptor}
    (h : (Classifier.classify ⟨g, hierarchy, config⟩ name).outcome = .ok properties)
    {x : PropertyDescriptor} (hx : x ∈ properties) :
    PropertyOrigin ⟨g, hierarchy, config⟩ name x := by
  rcases Classifier.mem_classify h hx with ⟨p, hp, hd⟩ | ⟨o, a, ho, ha, rfl⟩
  · have hdescribed := Classifier.describe_eq_ok hd
    refine .declared (hb.owned hg hp) hdescribed.key hdescribed.kind hdescribed.type ?_ ?_
    · intro ha
      rw [hdescribed.discriminator, ha, Bool.or_true]
    · intro literal hl
      obtain ⟨value, hv, hl⟩ := Option.bind_eq_some_iff.1 hl
      cases hdescribed.defaulted with
      | abstract modifier none lacks =>
        rw [none] at hv
        cases hv
      | fixed concrete ancestor only fixed has =>
        rw [hdescribed.key] at ancestor
        rw [hdescribed.mappings] at only
        rw [fixed] at hv
        cases hv
        cases hl
        exact .inr ⟨_, _, Classifier.fixed_iff.2 ⟨ancestor, only⟩, rfl⟩
      | declared concrete undecided coerced forProperty has =>
        rw [forProperty] at hv
        rw [DefaultValue.forProperty_literal? hv hl] at coerced
        refine .inl ⟨coerced, ?_⟩
        intro d key hfixed
        obtain ⟨ha, hk⟩ := Classifier.fixed_iff.1 hfixed
        rw [← hdescribed.key] at ha
        have hmany := (undecided d ha).many
        rw [hdescribed.mappings, hk] at hmany
        simp at hmany
  · exact .captured ho ha rfl rfl rfl rfl

omit [Libraries] in
theorem key_literal_enumMember {key : DiscriminatorKey} {enumType : Option String}
    {name constant : String} (h : key.literal enumType = .enumMember name constant) :
    enumType = some name := by
  unfold DiscriminatorKey.literal at h
  split at h
  · cases h
    rfl
  · cases h

omit [Libraries] in
/-- The enum of a discriminator is that of its declaration. -/
theorem Intact.has_enumType (hg : g.Intact) (hh : g.hierarchy = .ok hierarchy) {name other : String}
    {d : Discrimination} (hd : hierarchy.discrimination? name = some d)
    (he : d.descriptor.enumType = some other) :
    d.declaration.type = .named other ∧ g.Has other := by
  have howned := hg.owned_declaration hh name d hd
  have henum := (enum_of_discrimination? hh hd).1
  rw [he] at henum
  obtain ⟨⟨other', e⟩, hfound, hn⟩ := Option.map_eq_some_iff.1 henum.symm
  cases hn
  have htype := (enumOf?_eq_some hfound).1
  exact ⟨htype, (hg.owned_type howned (by rw [htype]; rfl)).has⟩

theorem Builds.mem_keys (hb : g.Builds config hierarchy m) (hg : g.Intact) {name : String}
    (h : g.Has name) : name ∈ m.schemas.keys := by
  obtain ⟨s, hs⟩ := h
  obtain ⟨d, hd, -⟩ := hb.has_model hg hs
  exact NameMap.mem_keys_iff.2 ⟨d, hd⟩

end Graph

variable [Libraries]

/-- A build is that of the graph of the document. -/
theorem Document.graph_of_build {d : Document} {config : Config} {b : Built}
    (h : d.build config = .ok b) :
    ∃ g, d.resolve d.names = .ok g ∧ g.Intact ∧ g.build config = .ok b := by
  unfold build buildInOrder at h
  obtain ⟨g, hg, h⟩ := bind_eq_ok_iff.1 h
  refine ⟨g, hg, resolve_intact (fun _ hm => hm) hg, ?_⟩
  cases hb : g.build config with
  | error e =>
    rw [hb] at h
    cases h
  | ok b' =>
    rw [hb] at h
    cases h
    rfl

theorem Document.build_eq_ok {d : Document} {config : Config} {b : Built}
    (h : d.build config = .ok b) : ∃ g hierarchy, d.resolve d.names = .ok g ∧ g.Intact ∧
      g.Builds config hierarchy b.model := by
  obtain ⟨g, hg, hintact, hb⟩ := graph_of_build h
  obtain ⟨hierarchy, hbuilds, -⟩ := Graph.build_eq_ok hb
  exact ⟨g, hierarchy, hg, hintact, hbuilds⟩

end SchemaModel
