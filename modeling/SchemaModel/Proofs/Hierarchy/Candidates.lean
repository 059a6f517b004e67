import SchemaModel.Hierarchy.Analysis
import SchemaModel.Proofs.NameMap
import SchemaModel.Proofs.Traced

/-!
The candidate supertypes that the analysis collects are exactly those that the schemas declare
(`mem_candidates`): a discriminated object that a schema names in `allOf`, or one that lists the
schema or maps a value to it.
-/

namespace SchemaModel

namespace Candidates

variable {c : Candidates} {schema super : String}

theorem mem_of_add {s p : String} :
    super ∈ (c.add s p).of schema ↔ (schema = s ∧ super = p) ∨ super ∈ c.of schema := by
  unfold add of
  rw [NameMap.find?_insert]
  by_cases hs : schema = s
  · rw [if_pos hs, Option.getD_some, NameSet.mem_keys_add, hs]
    simp
  · rw [if_neg hs]
    simp [hs]

theorem mem_of_empty : super ∉ Candidates.of .empty schema := List.not_mem_nil

/-- A fold of which each step adds the pairs of a relation adds those of all its elements. -/
theorem mem_of_foldl {α : Type} {step : Candidates → α → Candidates} {R : α → Prop}
    (hstep : ∀ c x, super ∈ (step c x).of schema ↔ R x ∨ super ∈ c.of schema) (l : List α)
    (c : Candidates) :
    super ∈ (l.foldl step c).of schema ↔ (∃ x ∈ l, R x) ∨ super ∈ c.of schema := by
  induction l generalizing c with
  | nil => simp
  | cons x rest ih =>
    rw [List.foldl_cons, ih, hstep]
    constructor
    · rintro (⟨y, hy, hr⟩ | hr | hc)
      · exact .inl ⟨y, List.mem_cons_of_mem _ hy, hr⟩
      · exact .inl ⟨x, List.mem_cons_self, hr⟩
      · exact .inr hc
    · rintro (⟨y, hy, hr⟩ | hc)
      · rcases List.mem_cons.1 hy with rfl | hy
        · exact .inr (.inl hr)
        · exact .inl ⟨y, hy, hr⟩
      · exact .inr (.inr hc)

theorem mem_keys_of_mem (h : super ∈ c.of schema) : schema ∈ c.keys := by
  rw [NameMap.mem_keys_iff]
  unfold of at h
  cases hf : c.find? schema with
  | none => simp [hf, NameMap.keys, NameMap.empty] at h
  | some found => exact ⟨found, rfl⟩

theorem mem_nodes_of_mem (h : super ∈ c.of schema) : schema ∈ c.nodes ∧ super ∈ c.nodes := by
  have hk := mem_keys_of_mem h
  unfold nodes
  rw [List.mem_eraseDups, List.mem_eraseDups, List.mem_append, List.mem_append]
  refine ⟨.inl hk, .inr ?_⟩
  obtain ⟨found, hf⟩ := NameMap.mem_keys_iff.1 hk
  rw [of, hf, Option.getD_some] at h
  exact List.mem_flatMap.2 ⟨found, NameMap.mem_values_iff.2 ⟨schema, hf⟩, h⟩

end Candidates

namespace Graph

variable {g : Graph}

theorem mem_supers {name : String} {o : ObjectShape} {d : Discriminator} :
    (name, o, d) ∈ g.supers ↔ ∃ s, g.schemas.find? name = some s ∧ s.shape.object? = some o ∧
      o.discriminator = some d := by
  unfold supers
  rw [List.mem_filterMap]
  constructor
  · rintro ⟨⟨name', s⟩, hm, h⟩
    obtain ⟨o', ho, h⟩ := Option.bind_eq_some_iff.1 h
    obtain ⟨d', hd, h⟩ := Option.bind_eq_some_iff.1 h
    cases h
    exact ⟨s, NameMap.mem_toList_iff.1 hm, ho, hd⟩
  · rintro ⟨s, hf, ho, hd⟩
    refine ⟨(name, s), NameMap.mem_toList_iff.2 hf, ?_⟩
    simp [ho, hd]

/-- `super` is declared a supertype of `schema`, by one of the two. -/
inductive Candidate (g : Graph) (schema super : String) : Prop where
  | branch {s : Resolved} {o so : ObjectShape} {d : Discriminator} {ref : String}
      (discriminated : (super, so, d) ∈ g.supers) (found : g.schemas.find? schema = some s)
      (object : s.shape.object? = some o) (mem : ref ∈ o.allOfRefs)
      (named : g.canonical ref = super)
  | member {so : ObjectShape} {d : Discriminator} {ref : String}
      (discriminated : (super, so, d) ∈ g.supers) (mem : ref ∈ so.unionMembers)
      (named : g.canonical ref = schema) (distinct : schema ≠ super)
  | mapped {so : ObjectShape} {d : Discriminator} {e : String × String}
      (discriminated : (super, so, d) ∈ g.supers) (mem : e ∈ d.mapping)
      (target : g.mappingTarget super e.2 = .ok schema) (distinct : schema ≠ super)

theorem contains_superNames {super : String} :
    (g.supers.map fun e => e.1).contains super ↔ ∃ so d, (super, so, d) ∈ g.supers := by
  rw [List.contains_iff_mem, List.mem_map]
  constructor
  · rintro ⟨⟨name, so, d⟩, hm, rfl⟩
    exact ⟨so, d, hm⟩
  · rintro ⟨so, d, hm⟩
    exact ⟨_, hm, rfl⟩

/-- What one branch adds to the candidates of the schema `name`. -/
theorem mem_of_addBranch {name ref schema super : String} {c : Candidates} :
    super ∈ (if (g.supers.map fun e => e.1).contains (g.canonical ref) then
        c.add name (g.canonical ref) else c).of schema ↔
      (schema = name ∧ g.canonical ref = super ∧ ∃ so d, (super, so, d) ∈ g.supers) ∨
        super ∈ c.of schema := by
  split
  · rename_i hc
    rw [Candidates.mem_of_add]
    constructor
    · rintro (⟨hs, hp⟩ | h)
      · exact .inl ⟨hs, hp.symm, contains_superNames.1 (hp ▸ hc)⟩
      · exact .inr h
    · rintro (⟨hs, hp, -⟩ | h)
      · exact .inl ⟨hs, hp.symm⟩
      · exact .inr h
  · rename_i hc
    constructor
    · exact .inr
    · rintro (⟨-, hp, h⟩ | h)
      · exact absurd (contains_superNames.2 h) (hp ▸ hc)
      · exact h

theorem mem_branchCandidates {schema super : String} :
    super ∈ Candidates.of g.branchCandidates schema ↔ ∃ s o so d ref, (super, so, d) ∈ g.supers ∧
      g.schemas.find? schema = some s ∧ s.shape.object? = some o ∧ ref ∈ o.allOfRefs ∧
      g.canonical ref = super := by
  unfold branchCandidates
  rw [@Candidates.mem_of_foldl schema super _ _ (fun e => ∃ o, e.2.shape.object? = some o ∧
    ∃ ref ∈ o.allOfRefs, schema = e.1 ∧ g.canonical ref = super ∧
      ∃ so d, (super, so, d) ∈ g.supers)]
  · constructor
    · rintro (⟨⟨name, s⟩, hm, o, ho, ref, href, rfl, hp, so, d, hd⟩ | h)
      · exact ⟨s, o, so, d, ref, hd, NameMap.mem_toList_iff.1 hm, ho, href, hp⟩
      · exact absurd h Candidates.mem_of_empty
    · rintro ⟨s, o, so, d, ref, hd, hf, ho, href, hp⟩
      exact .inl ⟨(schema, s), NameMap.mem_toList_iff.2 hf, o, ho, ref, href, rfl, hp, so, d, hd⟩
  · intro c e
    cases ho : e.2.shape.object? with
    | none => simp
    | some o =>
      have hbranch := fun c ref => @mem_of_addBranch g e.1 ref schema super c
      dsimp only
      rw [Candidates.mem_of_foldl hbranch]
      simp

/-- What one supertype with its members and mappings adds. -/
theorem mem_addMembers {supers : List (String × ObjectShape × Discriminator)} {c c' : Candidates}
    (h : g.addMembers c supers = .ok c') {schema super : String} :
    super ∈ c'.of schema ↔ (∃ so d, (super, so, d) ∈ supers ∧ schema ≠ super ∧
      ((∃ ref ∈ so.unionMembers, g.canonical ref = schema) ∨
        ∃ e ∈ d.mapping, g.mappingTarget super e.2 = .ok schema)) ∨ super ∈ c.of schema := by
  induction supers generalizing c with
  | nil =>
    cases h
    simp
  | cons first rest ih =>
    obtain ⟨name, o, d⟩ := first
    rw [addMembers] at h
    obtain ⟨targets, ht, h⟩ := bind_eq_ok_iff.1 h
    rw [ih h, @Candidates.mem_of_foldl schema super _ _ (fun m => schema = m ∧ super = name)
      (fun c m => Candidates.mem_of_add)]
    have htargets := mem_of_mapM_eq_ok ht
    simp only [List.mem_filter, List.mem_append, List.mem_map, htargets, bne_iff_ne]
    constructor
    · rintro (⟨so, d', hm, h⟩ | ⟨m, ⟨hm, hne⟩, rfl, rfl⟩ | h)
      · exact .inl ⟨so, d', List.mem_cons_of_mem _ hm, h⟩
      · exact .inl ⟨o, d, List.mem_cons_self, hne, hm⟩
      · exact .inr h
    · rintro (⟨so, d', hm, hne, h⟩ | h)
      · rcases List.mem_cons.1 hm with hm | hm
        · cases hm
          exact .inr (.inl ⟨schema, ⟨h, hne⟩, rfl, rfl⟩)
        · exact .inl ⟨so, d', hm, hne, h⟩
      · exact .inr (.inr h)

/-- The candidates that are collected are those that are declared. -/
theorem mem_candidates {c : Candidates} (h : g.candidates = .ok c) {schema super : String} :
    super ∈ c.of schema ↔ g.Candidate schema super := by
  rw [mem_addMembers h, mem_branchCandidates]
  constructor
  · rintro (⟨so, d, hd, hne, ⟨ref, hm, hc⟩ | ⟨e, hm, ht⟩⟩ | ⟨s, o, so, d, ref, hd, hf, ho, hm, hc⟩)
    · exact .member hd hm hc hne
    · exact .mapped hd hm ht hne
    · exact .branch hd hf ho hm hc
  · rintro (⟨hd, hf, ho, hm, hc⟩ | ⟨hd, hm, hc, hne⟩ | ⟨hd, hm, ht, hne⟩)
    · exact .inr ⟨_, _, _, _, _, hd, hf, ho, hm, hc⟩
    · exact .inl ⟨_, _, hd, hne, .inl ⟨_, hm, hc⟩⟩
    · exact .inl ⟨_, _, hd, hne, .inr ⟨_, hm, ht⟩⟩

end Graph

end SchemaModel
