import SchemaModel.Build
import SchemaModel.Proofs.Computed
import SchemaModel.Proofs.Resolve.Agreement

/-!
A build does not depend on the order in which components are listed or visited. Hierarchy and
properties are found from the schemas and aliases of a graph, never from its warnings, so graphs
that agree have the same model.
-/

namespace SchemaModel

namespace Graph

variable (g : Graph) (warnings : List Warning)

theorem addMembers_warnings (c : Candidates)
    (supers : List (String × ObjectShape × Discriminator)) :
    ({ g with warnings } : Graph).addMembers c supers = g.addMembers c supers := by
  induction supers generalizing c with
  | nil => rfl
  | cons first rest ih =>
    obtain ⟨name, o, discriminator⟩ := first
    have hm : ({ g with warnings } : Graph).mappingTarget name = g.mappingTarget name := rfl
    have hc : ({ g with warnings } : Graph).canonical = g.canonical := rfl
    simp only [addMembers, hm, hc, ih]

theorem discriminateAll_warnings (children : NameMap NameSet) (found : NameMap Discrimination)
    (supers : List (String × ObjectShape × Discriminator)) :
    ({ g with warnings } : Graph).discriminateAll children found supers =
      g.discriminateAll children found supers := by
  induction supers generalizing found with
  | nil => rfl
  | cons first rest ih =>
    obtain ⟨name, o, discriminator⟩ := first
    have hd : ({ g with warnings } : Graph).discriminate = g.discriminate := rfl
    simp only [discriminateAll, hd, ih]

theorem hierarchy_warnings : ({ g with warnings } : Graph).hierarchy = g.hierarchy := by
  have hb : ({ g with warnings } : Graph).branchCandidates = g.branchCandidates := rfl
  have hs : ({ g with warnings } : Graph).supers = g.supers := rfl
  simp only [hierarchy, candidates, hb, hs, addMembers_warnings, discriminateAll_warnings]

end Graph

section

variable [Libraries]

namespace Classifier

variable (g : Graph) (warnings : List Warning) (hierarchy : Hierarchy) (config : Config)

omit [Libraries] in
theorem visibleAlong_warnings (line : List String) :
    visibleAlong ⟨{ g with warnings }, hierarchy, config⟩ line =
      visibleAlong ⟨g, hierarchy, config⟩ line := by
  induction line with
  | nil => rfl
  | cons name rest ih =>
    rw [visibleAlong, visibleAlong, ih]
    rfl

theorem descriptor_warnings (s : Resolved) :
    descriptor ⟨{ g with warnings }, hierarchy, config⟩ s =
      descriptor ⟨g, hierarchy, config⟩ s := by
  have hv : ∀ name, visible ⟨{ g with warnings }, hierarchy, config⟩ name =
      visible ⟨g, hierarchy, config⟩ name := fun name => visibleAlong_warnings g warnings _ _ _
  have hd : describe ⟨{ g with warnings }, hierarchy, config⟩ =
      describe ⟨g, hierarchy, config⟩ := rfl
  have ho : ({ g with warnings } : Graph).object? = g.object? := rfl
  have hc : classify ⟨{ g with warnings }, hierarchy, config⟩ s.name =
      classify ⟨g, hierarchy, config⟩ s.name := by
    simp only [classify, hv, hd, ho]
  have hk : kindOf ⟨{ g with warnings }, hierarchy, config⟩ s =
      kindOf ⟨g, hierarchy, config⟩ s := rfl
  simp only [descriptor, hc, hk]

end Classifier

/-- Builds of which only the order of the warnings may differ. -/
structure Built.Agrees (b b' : Built) : Prop where
  model : b.model = b'.model
  counts : { b.stats with warnings := [] } = { b'.stats with warnings := [] }
  warnings : b.stats.warnings.Perm b'.stats.warnings

theorem Graph.Agrees.build {g g' : Graph} (h : g.Agrees g') (config : Config) :
    (∃ b b', g.build config = .ok b ∧ g'.build config = .ok b' ∧ b.Agrees b') ∨
    ∃ e, g.build config = .error e ∧ g'.build config = .error e := by
  obtain ⟨schemas, aliases, warnings'⟩ := g'
  obtain ⟨hs, ha, hw⟩ := h
  simp only at hs ha hw
  subst hs ha
  have hh : (⟨g.schemas, g.aliases, warnings'⟩ : Graph).hierarchy = g.hierarchy :=
    g.hierarchy_warnings warnings'
  have hd : ∀ hierarchy, Classifier.descriptor ⟨⟨g.schemas, g.aliases, warnings'⟩, hierarchy,
      config⟩ = Classifier.descriptor ⟨g, hierarchy, config⟩ := fun hierarchy =>
    funext (Classifier.descriptor_warnings g warnings' hierarchy config)
  unfold Graph.build
  rw [hh]
  -- hierarchy and descriptors are the same, so are the outcomes
  cases g.hierarchy with
  | error e => exact .inr ⟨e, rfl, rfl⟩
  | ok hierarchy =>
    simp only [bind, Except.bind, hd]
    cases (g.schemas.values.mapM (Classifier.descriptor ⟨g, hierarchy, config⟩)).outcome with
    | error e => exact .inr ⟨e, rfl, rfl⟩
    | ok descriptors =>
      exact .inl ⟨_, _, rfl, rfl, rfl, rfl, (hw.append_right _).append_left _⟩

/-- With the components of a document in any order, visited in any order and any number of times,
either both builds fail or both give one model, the same counts and the same warnings. -/
theorem Document.buildInOrder_agrees {d d' : Document} (h : d.components.Perm d'.components)
    (config : Config) {order order' : List String} (ho : ∀ name, name ∈ order ↔ name ∈ order') :
    (∃ b b', d.buildInOrder config order = .ok b ∧ d'.buildInOrder config order' = .ok b' ∧
      b.Agrees b') ∨
    ∃ e e', d.buildInOrder config order = .error e ∧ d'.buildInOrder config order' = .error e' := by
  unfold buildInOrder
  rcases resolve_agrees h ho with ⟨g, g', h₁, h₂, hg⟩ | ⟨e, e', h₁, h₂⟩
  · rw [h₁, h₂]
    rcases hg.build config with ⟨b, b', hb, hb', ha⟩ | ⟨e, he, he'⟩
    · refine .inl ⟨b, b', ?_, ?_, ha⟩
      · simp only [bind, Except.bind, hb, Stop.ofExcept]
      · simp only [bind, Except.bind, hb', Stop.ofExcept]
    · refine .inr ⟨.failed e, .failed e, ?_, ?_⟩
      · simp only [bind, Except.bind, he, Stop.ofExcept]
      · simp only [bind, Except.bind, he', Stop.ofExcept]
  · rw [h₁, h₂]
    exact .inr ⟨e, e', rfl, rfl⟩

end

/-- Two components whose inner objects have one base name, `ABC`, so that one of them is renamed. -/
def sharedInnerName : List (String × Node) :=
  let object (properties : List (String × Node)) : Node :=
    .schema { Schema.empty with type := some (.single .object), properties }
  let inner := object [("id", .schema { Schema.empty with type := some (.single .string) })]
  [("A", object [("bC", inner)]), ("AB", object [("c", inner)])]

theorem buildInOrder_agrees_shared_inner_name :
    let d : Document := ⟨"3.0.3", default, sharedInnerName, by decide⟩
    let d' : Document := ⟨"3.0.3", default, sharedInnerName.reverse, by decide⟩
    d.components.Perm d'.components ∧
      (∀ name, name ∈ ["A", "AB"] ↔ name ∈ ["AB", "A", "AB"]) ∧
      ∃ b b', d.buildInOrder .standard ["A", "AB"] = .ok b ∧
        d'.buildInOrder .standard ["AB", "A", "AB"] = .ok b' ∧ b.Agrees b' ∧
        b.model.schemas.keys = ["A", "AB", "ABC", "ABC2"] := by
  intro d d'
  have hperm : d.components.Perm d'.components := (List.reverse_perm _).symm
  have hnames : ∀ name, name ∈ ["A", "AB"] ↔ name ∈ ["AB", "A", "AB"] := by
    intro name
    simp only [List.mem_cons, List.not_mem_nil, or_false]
    grind
  have hrun : (d.buildInOrder .standard ["A", "AB"]).toOption.map (fun b => b.model.schemas.keys) =
      some ["A", "AB", "ABC", "ABC2"] := by cbv
  obtain ⟨b, hb, hkeys⟩ := toOption_map_eq_some_iff.1 hrun
  refine ⟨hperm, hnames, ?_⟩
  rcases Document.buildInOrder_agrees hperm .standard hnames with
    ⟨b₁, b', hb₁, hb', hagrees⟩ | ⟨e, e', he, -⟩
  · rw [hb, Except.ok.injEq] at hb₁
    subst hb₁
    exact ⟨b, b', hb, hb', hagrees, hkeys⟩
  · rw [hb] at he
    cases he

end SchemaModel
