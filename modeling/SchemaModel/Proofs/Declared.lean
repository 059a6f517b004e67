import SchemaModel.Proofs.Visible

/-!
The properties that a descriptor declares are those that are visible on its schema, one for each
key (`Describes`). So the descriptor of a supertype shows what its subtypes inherit.
-/

namespace SchemaModel

namespace SchemaDescriptor

/-- The declared properties, without the capture of others. -/
def declared (s : SchemaDescriptor) : List PropertyDescriptor :=
  s.properties.filter fun p => !p.isCapture

def Declares (s : SchemaDescriptor) (key : String) : Prop := ∃ p ∈ s.declared, p.key = key

/-- The key is that of the schema's own discriminator. -/
def DiscriminatesBy (s : SchemaDescriptor) (key : String) : Prop :=
  ∃ x, s.discriminator? = some x ∧ x.property = key

theorem property?_eq_find? (s : SchemaDescriptor) (key : String) :
    s.property? key = s.declared.find? fun p => p.key == key := by
  rw [property?, declared, List.find?_filter]
  congr 1
  funext p
  simp only [Bool.decide_and, Bool.decide_eq_true, Bool.and_comm]

theorem mem_of_property? {s : SchemaDescriptor} {key : String} {p : PropertyDescriptor}
    (h : s.property? key = some p) : p ∈ s.declared ∧ p.key = key := by
  rw [property?_eq_find?] at h
  exact ⟨List.mem_of_find?_eq_some h, eq_of_beq (List.find?_some h :)⟩

theorem declares_iff {s : SchemaDescriptor} {key : String} :
    s.Declares key ↔ key ∈ s.declared.map PropertyDescriptor.key := List.mem_map.symm

end SchemaDescriptor

variable [Libraries]

/-- `s` is the descriptor of the schema of its name, and what it warns about is noted. -/
structure Describes (c : Classifier) (noted : List Warning) (s : SchemaDescriptor) : Prop where
  supertype : s.supertype = c.hierarchy.parent? s.name
  subtypes : s.subtypes = c.hierarchy.childrenOf s.name
  discriminator : s.discriminator? =
    (c.hierarchy.discrimination? s.name).map Discrimination.descriptor
  object : s.isObject ↔ ∃ o, c.graph.object? s.name = some o
  keys : s.isObject → s.declared.map PropertyDescriptor.key = (c.visible s.name).keys
  declared : ∀ x ∈ s.declared, s.isObject ∧
    ∃ p ∈ (c.visible s.name).properties, c.Described s.name noted p x
  capture : ∀ x ∈ s.properties, x.isCapture →
    ∃ values, x = captureDescriptor c.config.mergePatch values

namespace Graph

variable {g : Graph} {config : Config} {hierarchy : Hierarchy} {m : TypeModel}

omit [Libraries] in
/-- The kind of a descriptor tells objects, and those that have a discriminator. -/
theorem kind_of_shape {c : Classifier} {r : Resolved} {s : SchemaDescriptor}
    (hk : s.kind = c.kindOf r) : s.isObject = r.shape.object?.isSome ∧
      s.discriminator? = r.shape.object?.bind fun _ =>
        (c.hierarchy.discrimination? r.name).map Discrimination.descriptor := by
  rw [SchemaDescriptor.isObject, SchemaDescriptor.discriminator?, hk, Classifier.kindOf]
  cases r.shape with
  | object o =>
    dsimp only [Shape.object?]
    cases c.hierarchy.discrimination? r.name with
    | some d => exact ⟨rfl, rfl⟩
    | none => by_cases hp : (c.hierarchy.parent? r.name).isSome <;> simp [hp]
  | primitive type => exact ⟨rfl, rfl⟩
  | enum e => exact ⟨rfl, rfl⟩
  | array items => exact ⟨rfl, rfl⟩
  | map values => exact ⟨rfl, rfl⟩

theorem Builds.described_ne_capture (hb : g.Builds config hierarchy m) (hg : g.Intact)
    {name : String} {p : ResolvedProperty} {x : PropertyDescriptor}
    (hp : p ∈ (Classifier.visible ⟨g, hierarchy, config⟩ name).properties)
    (hx : x.kind = p.kind) : x.isCapture = false := by
  have hkind := hg.owned_ne_capture (hb.owned hg hp)
  simp [PropertyDescriptor.isCapture, hx, hkind]

/-- What an object declares are its described properties; the capture is left out. -/
theorem Builds.filter_captures (hb : g.Builds config hierarchy m) (hg : g.Intact) {name : String}
    {o : ObjectShape} (ho : g.object? name = some o) {properties : List PropertyDescriptor}
    (h : (Classifier.classify ⟨g, hierarchy, config⟩ name).outcome = .ok properties) :
    let c : Classifier := ⟨g, hierarchy, config⟩
    ((c.visible name).properties.mapM fun p =>
      (c.describe name (c.visible name) (c.inheritedKeys name) p).outcome) =
        .ok (properties.filter fun p => !p.isCapture) := by
  intro c
  obtain ⟨described, hdesc, rfl⟩ := Classifier.classify_eq_ok (c := c) ho h
  have hkept : described.filter (fun p => !p.isCapture) = described := by
    rw [List.filter_eq_self]
    intro x hx
    obtain ⟨p, hp, hd⟩ := (mem_of_mapM_eq_ok hdesc x).1 hx
    rw [hb.described_ne_capture hg hp (Classifier.describe_eq_ok hd).kind]
    rfl
  have hleft : (c.captures o).filter (fun p => !p.isCapture) = [] := by
    unfold Classifier.captures
    split <;> rfl
  rw [List.filter_append, hkept, hleft, List.append_nil, hdesc]

/-- What an object declares is described from what is visible on it, warnings included. -/
theorem Builds.described_of_declared (hb : g.Builds config hierarchy m) (hg : g.Intact)
    {noted : List Warning} {name : String} {properties : List PropertyDescriptor}
    (h : (Classifier.classify ⟨g, hierarchy, config⟩ name).outcome = .ok properties)
    (hw : ∀ w ∈ (Classifier.classify ⟨g, hierarchy, config⟩ name).warnings, w ∈ noted)
    {x : PropertyDescriptor} (hx : x ∈ properties.filter fun p => !p.isCapture) :
    let c : Classifier := ⟨g, hierarchy, config⟩
    (∃ o, g.object? name = some o) ∧
      ∃ p ∈ (c.visible name).properties, c.Described name noted p x := by
  intro c
  cases ho : g.object? name with
  | none =>
    simp only [Classifier.classify, ho] at h
    cases h
    cases hx
  | some o =>
    have hdesc := hb.filter_captures hg ho h
    obtain ⟨p, hp, hx⟩ := (mem_of_mapM_eq_ok hdesc x).1 hx
    refine ⟨⟨o, rfl⟩, p, hp, (Classifier.describe_eq_ok hx).mono fun w hm => hw w ?_⟩
    exact Classifier.mem_warnings_classify (c := c) ho h hp hm

theorem Builds.describes (hb : g.Builds config hierarchy m) (hg : g.Intact)
    {noted : List Warning} (hw : ∀ r ∈ g.schemas.values,
      ∀ w ∈ (Classifier.descriptor ⟨g, hierarchy, config⟩ r).warnings, w ∈ noted)
    {name : String} {s : SchemaDescriptor} (hf : m.schemas.find? name = some s) :
    s.name = name ∧ Describes ⟨g, hierarchy, config⟩ noted s := by
  obtain ⟨r, hr, hd⟩ := (hb.find?_model hg).1 hf
  obtain ⟨properties, hclassify, heq⟩ := Classifier.descriptor_eq_ok hd
  have hname : s.name = r.name := by rw [heq]
  have hproperties : s.properties = properties := by rw [heq]
  have hrname := hg.name_eq name r hr
  have hobject : g.object? r.name = r.shape.object? := by
    rw [object?, get?, hrname, hg.canonical_eq ⟨r, hr⟩, hr, Option.bind_some]
  have hwarned : ∀ w ∈ (Classifier.classify ⟨g, hierarchy, config⟩ r.name).warnings, w ∈ noted := by
    intro w hm
    apply hw r (NameMap.mem_values_iff.2 ⟨name, hr⟩)
    exact (Traced.mem_warnings_bind hclassify).2 (.inl hm)
  obtain ⟨hisObject, hdiscriminator⟩ :=
    kind_of_shape (s := s) (c := ⟨g, hierarchy, config⟩) (by rw [heq])
  rw [← hobject, ← hname] at hisObject hdiscriminator
  rw [← hname] at hclassify hwarned
  refine ⟨hname.trans hrname, by rw [heq], by rw [heq], ?_, ?_, ?_, ?_, ?_⟩
  · rw [hdiscriminator]
    cases hd : hierarchy.discrimination? s.name with
    | none => cases g.object? s.name <;> rfl
    | some d =>
      obtain ⟨o, x, ho, -⟩ := (hg.discriminated hb.hierarchy_eq hd).object
      rw [ho]
      rfl
  · rw [hisObject, Option.isSome_iff_exists]
  · rw [hisObject, SchemaDescriptor.declared, hproperties]
    intro ho
    obtain ⟨o, ho⟩ := Option.isSome_iff_exists.1 ho
    exact map_eq_of_mapM_eq_ok (fun p x hx => (Classifier.describe_eq_ok hx).key)
      (hb.filter_captures hg ho hclassify)
  · rw [hisObject, SchemaDescriptor.declared, hproperties, Option.isSome_iff_exists]
    intro x hx
    exact hb.described_of_declared hg hclassify hwarned hx
  · rw [hproperties]
    intro x hx hcapture
    rcases Classifier.mem_classify hclassify hx with ⟨p, hp, hd⟩ | ⟨o, a, -, -, rfl⟩
    · rw [hb.described_ne_capture hg hp (Classifier.describe_eq_ok hd).kind] at hcapture
      cases hcapture
    · exact ⟨a.type, rfl⟩

end Graph

/-- `b` is the model of a graph, with the hierarchy and the options of `c`. -/
structure Models (c : Classifier) (b : Built) : Prop where
  intact : c.graph.Intact
  builds : c.graph.Builds c.config c.hierarchy b.model
  describes : ∀ name s, b.model.schemas.find? name = some s →
    s.name = name ∧ Describes c b.stats.warnings s

theorem Document.build_models {d : Document} {config : Config} {b : Built}
    (h : d.build config = .ok b) :
    ∃ g hierarchy, d.resolve d.names = .ok g ∧ Models ⟨g, hierarchy, config⟩ b := by
  obtain ⟨g, hg, hintact, hb⟩ := graph_of_build h
  obtain ⟨hierarchy, hbuilds, hwarned⟩ := Graph.build_eq_ok hb
  exact ⟨g, hierarchy, hg, hintact, hbuilds, fun _ _ hf => hbuilds.describes hintact hwarned hf⟩

namespace Models

variable {c : Classifier} {b : Built} (hm : Models c b) {s t : SchemaDescriptor}

include hm

theorem hierarchy_eq : c.graph.hierarchy = .ok c.hierarchy := hm.builds.hierarchy_eq

theorem describes_of_mem (hs : s ∈ b.model.schemas.values) : Describes c b.stats.warnings s := by
  obtain ⟨name, hf⟩ := NameMap.mem_values_iff.1 hs
  exact (hm.describes name s hf).2

theorem exists_parent {name parent : String} (hp : c.hierarchy.parent? name = some parent) :
    ∃ t, b.model.schemas.find? parent = some t ∧ t.name = parent := by
  obtain ⟨r, hr⟩ := ((Graph.candidate_of_parent? hm.hierarchy_eq hp).has hm.intact).2
  obtain ⟨t, ht, -⟩ := hm.builds.has_model hm.intact hr
  exact ⟨t, ht, (hm.describes parent t ht).1⟩

/-- The supertype of a descriptor is found in the model under its own name. -/
theorem supertypeOf?_eq_some_iff (hs : Describes c b.stats.warnings s) :
    b.model.supertypeOf? s = some t ↔
      t ∈ b.model.schemas.values ∧ c.hierarchy.parent? s.name = some t.name := by
  rw [TypeModel.supertypeOf?, hs.supertype]
  cases hp : c.hierarchy.parent? s.name with
  | none => simp
  | some parent =>
    obtain ⟨u, hu, hname⟩ := hm.exists_parent hp
    rw [Option.bind_some, TypeModel.get?, hu, Option.orElse_some, Option.some.injEq,
      Option.some.injEq, NameMap.mem_values_iff]
    constructor
    · rintro rfl
      exact ⟨⟨parent, hu⟩, hname.symm⟩
    · rintro ⟨⟨name, hf⟩, rfl⟩
      rw [(hm.describes name t hf).1, hf, Option.some.injEq] at hu
      exact hu.symm

theorem exists_supertypeOf? (hs : Describes c b.stats.warnings s) (hp : s.supertype.isSome) :
    ∃ t, b.model.supertypeOf? s = some t := by
  rw [hs.supertype] at hp
  obtain ⟨parent, hp⟩ := Option.isSome_iff_exists.1 hp
  obtain ⟨t, ht, hname⟩ := hm.exists_parent hp
  refine ⟨t, (hm.supertypeOf?_eq_some_iff hs).2 ⟨NameMap.mem_values_iff.2 ⟨parent, ht⟩, ?_⟩⟩
  rw [hp, hname]

/-- A supertype is an object with a discriminator. -/
theorem super_discriminated {name parent : String} (hp : c.hierarchy.parent? name = some parent) :
    ∃ d, c.hierarchy.discrimination? parent = some d ∧
      c.graph.Discriminated c.hierarchy parent d := by
  obtain ⟨d, hd⟩ := Graph.discrimination?_of_parent? hm.hierarchy_eq hp
  exact ⟨d, hd, hm.intact.discriminated hm.hierarchy_eq hd⟩

theorem super_isObject (ht : Describes c b.stats.warnings t) {name : String}
    (hp : c.hierarchy.parent? name = some t.name) : t.isObject := by
  obtain ⟨d, -, hd⟩ := hm.super_discriminated hp
  obtain ⟨o, x, ho, -⟩ := hd.object
  exact ht.object.2 ⟨o, ho⟩

end Models

section

variable {c : Classifier} {noted : List Warning} {s : SchemaDescriptor}
  (hs : Describes c noted s) (hg : c.graph.Intact) (hh : c.graph.hierarchy = .ok c.hierarchy)

include hs

theorem Describes.discriminatesBy_iff {key : String} :
    s.DiscriminatesBy key ↔ c.isOwn s.name key := by
  rw [SchemaDescriptor.DiscriminatesBy, hs.discriminator, Classifier.isOwn_iff]
  constructor
  · rintro ⟨x, hx, hk⟩
    obtain ⟨d, hd, rfl⟩ := Option.map_eq_some_iff.1 hx
    exact ⟨d, hd, hk⟩
  · rintro ⟨d, hd, hk⟩
    exact ⟨d.descriptor, by rw [hd, Option.map_some], hk⟩

theorem Describes.declares_iff (ho : s.isObject) {key : String} :
    s.Declares key ↔ (c.shown? s.name key).isSome := by
  rw [SchemaDescriptor.declares_iff, hs.keys ho, Visible.mem_keys_iff]
  rfl

/-- A property of a descriptor is described from a visible one, or captures the others. -/
theorem Describes.described_or_capture {x : PropertyDescriptor} (hx : x ∈ s.properties) :
    (∃ p, c.Described s.name noted p x) ∨
      ∃ values, x = captureDescriptor c.config.mergePatch values := by
  cases hc : x.isCapture with
  | true => exact .inr (hs.capture x hx hc)
  | false =>
    have hdeclared : x ∈ s.declared := List.mem_filter.2 ⟨hx, by rw [hc]; rfl⟩
    obtain ⟨-, p, -, hp⟩ := hs.declared x hdeclared
    exact .inl ⟨p, hp⟩

include hg hh

theorem Describes.nodup : (s.declared.map PropertyDescriptor.key).Nodup := by
  by_cases ho : s.isObject
  · rw [hs.keys ho]
    exact Classifier.nodup_visible hg hh s.name
  · have hnone : s.declared = [] := by
      apply List.eq_nil_iff_forall_not_mem.2
      intro x hx
      exact ho (hs.declared x hx).1
    rw [hnone]
    exact List.nodup_nil

theorem Describes.property?_eq_some_iff {key : String} {x : PropertyDescriptor} :
    s.property? key = some x ↔ x ∈ s.declared ∧ x.key = key := by
  rw [SchemaDescriptor.property?_eq_find?, find?_key_eq_some_iff (hs.nodup hg hh)]

theorem Describes.shown {x : PropertyDescriptor} (hx : x ∈ s.declared) :
    ∃ p, c.shown? s.name x.key = some p ∧ c.Described s.name noted p x := by
  obtain ⟨-, p, hp, hdesc⟩ := hs.declared x hx
  refine ⟨p, ?_, hdesc⟩
  rw [hdesc.key]
  exact (Classifier.mem_visible_iff hg hh).1 hp

end

end SchemaModel
