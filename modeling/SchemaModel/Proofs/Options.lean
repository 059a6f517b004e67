import SchemaModel.Proofs.Computed
import SchemaModel.Proofs.NullSafety

/-!
What the options of a build have an effect on. The dialect has none on the model. Where the strict
policy succeeds no subtype has several keys, and the lenient one comes to the same. Merge patch
decides on the form of a default, on the wrapping of a property and on whether it is mandatory,
hence on the check of null, and on nothing else: two builds that differ in it are the same after
these have been put back (`Document.buildInOrder_options`).
-/

namespace SchemaModel

/-- The form that a default has outside of merge patches. -/
def DefaultValue.unpatched : DefaultValue → DefaultValue
  | literal value => .literal value
  | present value => .literal value
  | undefined => .null
  | null => .null

@[simp] theorem DefaultValue.literal?_unpatched (v : DefaultValue) :
    v.unpatched.literal? = v.literal? := by
  cases v <;> rfl

theorem DefaultValue.forProperty_unpatched (found : Option Literal) (isRequired mergePatch : Bool) :
    (forProperty found isRequired mergePatch).map unpatched =
      forProperty found isRequired false := by
  cases isRequired <;> cases mergePatch <;> cases found <;> rfl

/-- A property without what merge patch decides on. The literal of its default stays. -/
def PropertyDescriptor.unpatched (p : PropertyDescriptor) : PropertyDescriptor :=
  { p with
    default := p.default.map DefaultValue.unpatched
    wrapping := .plain
    mandatory := false
    checks := p.checks.filter (· != .notNull) }

@[simp] theorem PropertyDescriptor.literal?_unpatched (p : PropertyDescriptor) :
    p.unpatched.literal? = p.literal? := by
  cases hd : p.default <;> simp [literal?, unpatched, hd]

def SchemaDescriptor.unpatched (s : SchemaDescriptor) : SchemaDescriptor :=
  { s with properties := s.properties.map PropertyDescriptor.unpatched }

def TypeModel.unpatched (m : TypeModel) : TypeModel :=
  { m with schemas := m.schemas.map fun _ s => s.unpatched }

theorem DiscriminatorPolicy.evaluate_implies (schema property : String)
    (keys : List DiscriminatorKey) :
    (strict.evaluate schema property keys).Implies (lenient.evaluate schema property keys) := by
  intro value h
  match keys with
  | [] => rfl
  | [_] => rfl
  | _ :: _ :: _ => cases h

namespace Classifier

theorem classify_of_object? [Libraries] {c : Classifier} {name : String} {o : ObjectShape}
    (ho : c.graph.object? name = some o) : c.classify name =
      (c.visible name).properties.mapM
        (c.describe name (c.visible name) (c.inheritedKeys name)) >>= fun described =>
          return described ++ c.captures o := by
  unfold classify
  rw [ho]
  rfl

theorem propertyChecks_unpatched (c : Classifier) (role : Role) (p : ResolvedProperty)
    (mandatory : Bool) : (c.propertyChecks role p mandatory).filter (· != .notNull) =
      c.propertyChecks role p false := by
  have hkind : p.kind.checks.filter (· != .notNull) = p.kind.checks := by
    rw [List.filter_eq_self]
    intro check hc
    rw [bne_iff_ne]
    rintro rfl
    exact p.kind.notNull_notMem_checks hc
  cases hr : role.isSuper with
  | true => rw [propertyChecks_of_isSuper hr, propertyChecks_of_isSuper hr, List.filter_nil]
  | false =>
    unfold propertyChecks
    cases role with
    | super | intermediate => cases hr
    | single | sub =>
      cases mandatory <;> cases c.graph.isComplex p.type <;> simp [hkind]

variable [Libraries]

section

variable (g : Graph) (hierarchy : Hierarchy) (config config' : Config)

omit [Libraries] in
/-- What is visible on a schema does not depend on any option. -/
theorem visible_config : visible ⟨g, hierarchy, config⟩ = visible ⟨g, hierarchy, config'⟩ := by
  have halong : ∀ line, visibleAlong ⟨g, hierarchy, config⟩ line =
      visibleAlong ⟨g, hierarchy, config'⟩ line := by
    intro line
    induction line with
    | nil => rfl
    | cons name rest ih =>
      rw [visibleAlong, visibleAlong, ih]
      rfl
  funext name
  exact halong _

omit [Libraries] in
theorem inheritedKeys_config :
    inheritedKeys ⟨g, hierarchy, config⟩ = inheritedKeys ⟨g, hierarchy, config'⟩ := by
  funext name
  simp only [inheritedKeys, visible_config g hierarchy config config']

theorem descriptor_dialect (dialect : Dialect) :
    descriptor ⟨g, hierarchy, { config with dialect }⟩ = descriptor ⟨g, hierarchy, config⟩ := by
  have hvisible := visible_config g hierarchy { config with dialect } config
  have hdescribe : describe ⟨g, hierarchy, { config with dialect }⟩ =
      describe ⟨g, hierarchy, config⟩ := rfl
  have hclassify : classify ⟨g, hierarchy, { config with dialect }⟩ =
      classify ⟨g, hierarchy, config⟩ := by
    funext name
    simp only [classify, hvisible, hdescribe]
  funext s
  simp only [descriptor, hclassify]
  rfl

end

/-- What is described under the strict policy is described alike under the lenient one. -/
theorem descriptor_implies (g : Graph) (hierarchy : Hierarchy) (config : Config) (s : Resolved) :
    (descriptor ⟨g, hierarchy, { config with policy := .strict }⟩ s).Implies
      (descriptor ⟨g, hierarchy, { config with policy := .lenient }⟩ s) := by
  have hdefault : ∀ name p isRequired isAbstract ancestor mappings,
      (propertyDefault ⟨g, hierarchy, { config with policy := .strict }⟩ name p isRequired
        isAbstract ancestor mappings).Implies
      (propertyDefault ⟨g, hierarchy, { config with policy := .lenient }⟩ name p isRequired
        isAbstract ancestor mappings) := by
    intro name p isRequired isAbstract ancestor mappings
    unfold propertyDefault
    cases isAbstract with
    | true => exact .refl _
    | false =>
      cases ancestor with
      | none => exact .refl _
      | some d =>
        exact (DiscriminatorPolicy.evaluate_implies name p.key mappings).bind fun _ => .refl _
  have hdescribe : ∀ name visible inherited p,
      (describe ⟨g, hierarchy, { config with policy := .strict }⟩ name visible inherited p).Implies
      (describe ⟨g, hierarchy, { config with policy := .lenient }⟩ name visible inherited p) :=
    fun name visible inherited p => (hdefault _ _ _ _ _ _).bind fun _ => .refl _
  refine Traced.Implies.bind ?_ fun _ => .refl _
  cases ho : g.object? s.name with
  | none =>
    simp only [classify, ho]
    exact .refl _
  | some o =>
    rw [classify_of_object? ho, classify_of_object? ho,
      visible_config g hierarchy
        { config with policy := .lenient } { config with policy := .strict },
      inheritedKeys_config g hierarchy { config with policy := .lenient }
        { config with policy := .strict }]
    exact (Traced.Implies.mapM (hdescribe _ _ _) _).bind fun _ => .refl _

section

variable (g : Graph) (hierarchy : Hierarchy) (config : Config) (mergePatch : Bool)

/-- A default is found in the same way with and without merge patch, and then put into form. -/
theorem propertyDefault_unpatched (name : String) (p : ResolvedProperty)
    (isRequired isAbstract : Bool) (ancestor : Option Discrimination)
    (mappings : List DiscriminatorKey) :
    Prod.map (Option.map DefaultValue.unpatched) id <$>
        propertyDefault ⟨g, hierarchy, { config with mergePatch }⟩ name p isRequired isAbstract
          ancestor mappings =
      Prod.map (Option.map DefaultValue.unpatched) id <$>
        propertyDefault ⟨g, hierarchy, config⟩ name p isRequired isAbstract ancestor mappings := by
  have hdeclared : ∀ config : Config, Prod.map (Option.map DefaultValue.unpatched) id <$>
      declaredDefault ⟨g, hierarchy, config⟩ name p isRequired =
      (fun literal => (DefaultValue.forProperty literal isRequired false, literal.isSome)) <$>
        g.coerce name p := by
    intro config
    simp only [declaredDefault, map_eq_pure_bind, bind_assoc, pure_bind, Prod.map,
      DefaultValue.forProperty_unpatched, id]
  unfold propertyDefault
  cases isAbstract with
  | true => rfl
  | false =>
    cases ancestor with
    | none => exact (hdeclared _).trans (hdeclared _).symm
    | some d =>
      simp only [Bool.false_eq_true, if_false, map_bind]
      congr 1
      funext value
      cases value with
      | fixed key => rfl
      | settable keys => exact (hdeclared _).trans (hdeclared _).symm

theorem describe_unpatched (name : String) (visible : Visible) (inherited : List String)
    (p : ResolvedProperty) :
    PropertyDescriptor.unpatched <$>
        describe ⟨g, hierarchy, { config with mergePatch }⟩ name visible inherited p =
      PropertyDescriptor.unpatched <$>
        describe ⟨g, hierarchy, config⟩ name visible inherited p := by
  simp only [describe, map_bind, map_pure]
  refine Traced.bind_congr_of_map (propertyDefault_unpatched g hierarchy config mergePatch ..) ?_
  rintro ⟨default, hasDefault⟩ ⟨default', hasDefault'⟩ he
  obtain ⟨hdefault, rfl⟩ := Prod.mk.inj he
  simp only [PropertyDescriptor.unpatched, propertyChecks_unpatched]
  rw [hdefault]
  rfl

theorem descriptor_unpatched (s : Resolved) :
    SchemaDescriptor.unpatched <$> descriptor ⟨g, hierarchy, { config with mergePatch }⟩ s =
      SchemaDescriptor.unpatched <$> descriptor ⟨g, hierarchy, config⟩ s := by
  have hcapture : ∀ values, (captureDescriptor mergePatch values).unpatched =
      (captureDescriptor config.mergePatch values).unpatched := fun _ => rfl
  have hclassify : List.map PropertyDescriptor.unpatched <$>
        classify ⟨g, hierarchy, { config with mergePatch }⟩ s.name =
      List.map PropertyDescriptor.unpatched <$> classify ⟨g, hierarchy, config⟩ s.name := by
    cases ho : g.object? s.name with
    | none =>
      simp only [classify, ho]
    | some o =>
      rw [classify_of_object? ho, classify_of_object? ho,
        visible_config g hierarchy { config with mergePatch } config,
        inheritedKeys_config g hierarchy { config with mergePatch } config]
      simp only [map_bind, map_pure, List.map_append]
      refine Traced.bind_congr_of_map (Traced.map_mapM (describe_unpatched g hierarchy config
        mergePatch _ _ _) _) ?_
      intro described described' he
      rw [he]
      cases ha : o.additional with
      | none => simp only [captures, ha]
      | some a => simp only [captures, ha, List.map_cons, List.map_nil, hcapture]
  simp only [descriptor, map_bind, map_pure]
  refine Traced.bind_congr_of_map hclassify ?_
  intro properties properties' he
  simp only [SchemaDescriptor.unpatched]
  rw [he]
  rfl

end

end Classifier

theorem Stats.countDescriptor_unpatched (stats : Stats) (s : SchemaDescriptor) :
    stats.countDescriptor s.unpatched = stats.countDescriptor s := by
  simp only [countDescriptor, SchemaDescriptor.unpatched, List.length_map]
  rfl

/-- Statistics count nothing that merge patch decides on. -/
theorem Stats.countAll_unpatched (stats : Stats) (descriptors : List SchemaDescriptor) :
    (descriptors.map SchemaDescriptor.unpatched).foldl countDescriptor stats =
      descriptors.foldl countDescriptor stats := by
  simp only [List.foldl_map, countDescriptor_unpatched]

theorem TypeModel.unpatched_ofList (descriptors : List SchemaDescriptor)
    (aliases : NameMap String) :
    (TypeModel.mk (NameMap.ofList (descriptors.map fun s => (s.name, s))) aliases).unpatched =
      ⟨NameMap.ofList ((descriptors.map SchemaDescriptor.unpatched).map fun s => (s.name, s)),
        aliases⟩ := by
  have hschemas : (NameMap.ofList (descriptors.map fun s => (s.name, s))).map
        (fun _ s => s.unpatched) =
      NameMap.ofList ((descriptors.map SchemaDescriptor.unpatched).map fun s => (s.name, s)) := by
    apply NameMap.ext
    intro name
    rw [NameMap.find?_map, NameMap.find?_ofList, NameMap.find?_ofList]
    simp only [← List.map_reverse]
    generalize descriptors.reverse = listed
    induction listed with
    | nil => rfl
    | cons s rest ih =>
      simp only [List.map_cons, NameMap.lookup_cons_ite, ← ih]
      have hname : s.unpatched.name = s.name := rfl
      rw [hname]
      split <;> rfl
  rw [unpatched, hschemas]

section

variable [Libraries]

namespace Graph

variable (g : Graph) (config : Config)

theorem build_dialect (dialect : Dialect) :
    g.build { config with dialect } = g.build config := by
  simp only [build, Classifier.descriptor_dialect]

theorem build_lenient {b : Built} (h : g.build { config with policy := .strict } = .ok b) :
    g.build { config with policy := .lenient } = .ok b := by
  unfold build at h ⊢
  obtain ⟨hierarchy, hh, h⟩ := bind_eq_ok_iff.1 h
  obtain ⟨descriptors, hd, h⟩ := bind_eq_ok_iff.1 h
  have hsame := Traced.Implies.mapM (Classifier.descriptor_implies g hierarchy config) _ _ hd
  refine bind_eq_ok_iff.2 ⟨hierarchy, hh, bind_eq_ok_iff.2 ⟨descriptors, ?_, ?_⟩⟩
  · rw [hsame, hd]
  · rw [hsame]
    exact h

theorem build_unpatched (mergePatch : Bool) :
    (∃ e, g.build { config with mergePatch } = .error e ∧ g.build config = .error e) ∨
    ∃ b b', g.build { config with mergePatch } = .ok b ∧ g.build config = .ok b' ∧
      b.model.unpatched = b'.model.unpatched ∧ b.stats = b'.stats := by
  unfold build
  cases g.hierarchy with
  | error e => exact .inl ⟨e, rfl, rfl⟩
  | ok hierarchy =>
    obtain ⟨hw, ⟨e, hd, hd'⟩ | ⟨descriptors, descriptors', hd, hd', he⟩⟩ :=
      Traced.agree_of_map (Traced.map_mapM
        (Classifier.descriptor_unpatched g hierarchy config mergePatch) g.schemas.values)
    · refine .inl ⟨e, ?_, ?_⟩
      · simp only [bind, Except.bind, hd]
      · simp only [bind, Except.bind, hd']
    · simp only [bind, Except.bind, hd, hd', hw]
      refine .inr ⟨_, _, rfl, rfl, ?_, ?_⟩
      · rw [TypeModel.unpatched_ofList, TypeModel.unpatched_ofList, he]
      · rw [← Stats.countAll_unpatched _ descriptors, he, Stats.countAll_unpatched]

end Graph

/-- For every document the dialect has no effect on a build. A build that succeeds under the
strict policy gives the same under the lenient one, the statistics and their warnings included. Two
builds that differ in merge patch fail with one error, or both succeed with the same statistics and
with models that differ in nothing but what merge patch decides on. -/
theorem Document.buildInOrder_options (d : Document) (config : Config) (order : List String) :
    (∀ dialect, d.buildInOrder { config with dialect } order = d.buildInOrder config order) ∧
    (∀ b, d.buildInOrder { config with policy := .strict } order = .ok b →
      d.buildInOrder { config with policy := .lenient } order = .ok b) ∧
    ∀ mergePatch,
      (∃ e, d.buildInOrder { config with mergePatch } order = .error e ∧
        d.buildInOrder config order = .error e) ∨
      ∃ b b', d.buildInOrder { config with mergePatch } order = .ok b ∧
        d.buildInOrder config order = .ok b' ∧
        b.model.unpatched = b'.model.unpatched ∧ b.stats = b'.stats := by
  unfold buildInOrder
  cases d.resolve order with
  | error e =>
    refine ⟨fun _ => rfl, ?_, fun _ => .inl ⟨e, rfl, rfl⟩⟩
    intro b h
    cases h
  | ok g =>
    simp only [bind, Except.bind]
    refine ⟨?_, ?_, ?_⟩
    · intro dialect
      rw [g.build_dialect]
    · intro b h
      cases hb : g.build { config with policy := .strict } with
      | error e =>
        rw [hb] at h
        cases h
      | ok built =>
        rw [hb] at h
        cases h
        rw [g.build_lenient config hb]
        rfl
    · intro mergePatch
      rcases g.build_unpatched config mergePatch with ⟨e, h, h'⟩ | ⟨b, b', h, h', hsame⟩
      · exact .inl ⟨.failed e, by rw [h]; rfl, by rw [h']; rfl⟩
      · exact .inr ⟨b, b', by rw [h]; rfl, by rw [h']; rfl, hsame⟩

end

theorem buildInOrder_options_fixed_below : ∃ b,
    fixedBelow.buildInOrder { Config.standard with policy := .strict } fixedBelow.names = .ok b ∧
      fixedBelow.buildInOrder .standard fixedBelow.names = .ok b ∧
      ∃ b', fixedBelow.buildInOrder { Config.standard with mergePatch := true } fixedBelow.names =
        .ok b' ∧ b'.model.unpatched = b.model.unpatched ∧ b'.stats = b.stats := by
  have hok : (fixedBelow.buildInOrder { Config.standard with policy := .strict }
      fixedBelow.names).toOption.isSome = true := by cbv
  obtain ⟨b, hb⟩ := exists_eq_ok_of_isSome hok
  obtain ⟨-, hlenient, hpatch⟩ :=
    Document.buildInOrder_options fixedBelow .standard fixedBelow.names
  have hb' : fixedBelow.buildInOrder .standard fixedBelow.names = .ok b := hlenient b hb
  refine ⟨b, hb, hb', ?_⟩
  rcases hpatch true with ⟨e, -, he⟩ | ⟨patched, other, hpatched, hother, hsame⟩
  · rw [hb'] at he
    cases he
  · rw [hb', Except.ok.injEq] at hother
    exact ⟨patched, hpatched, hother ▸ hsame⟩

end SchemaModel
