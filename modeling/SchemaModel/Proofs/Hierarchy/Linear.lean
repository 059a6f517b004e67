import SchemaModel.Proofs.Computed
import SchemaModel.Proofs.Hierarchy.Cycles

/-!
Where no schema is its own supertype along candidates, one parent for each schema says as much as
all candidates do. The choice of parents fails exactly if the supertypes of some schema are no
chain, and otherwise the ancestors of a schema are all its supertypes in the order of that chain
(`selectParents_linearises`).
-/

namespace SchemaModel

open Relation

theorem selectParents_eq_error {c : Candidates} {names : List String} {parents : NameMap String}
    {e : ModelError} (h : selectParents c names parents = .error e) :
    ∃ schema p q rest, c.direct schema = p :: q :: rest ∧
      e = .ambiguousSupertype schema (p :: q :: rest) := by
  induction names generalizing parents with
  | nil => cases h
  | cons schema names ih =>
    rw [selectParents] at h
    split at h
    · exact ih h
    · exact ih h
    · rename_i several hnone hone
      cases h
      cases hd : c.direct schema with
      | nil => exact absurd hd hnone
      | cons p others =>
        cases others with
        | nil => exact absurd hd (hone p)
        | cons q rest => exact ⟨schema, p, q, rest, hd, rfl⟩

theorem Candidates.nodup_direct (c : Candidates) (schema : String) : (c.direct schema).Nodup :=
  (NameMap.keys_nodup _).filter _

namespace Hierarchy

variable {h : Hierarchy} {schema p q : String}

/-- The schemas above one schema are a chain. -/
theorem below_trichotomy (hp : TransGen h.Below schema p) (hq : TransGen h.Below schema q) :
    p = q ∨ TransGen h.Below p q ∨ TransGen h.Below q p := by
  have hone : Relator.RightUnique h.Below := by
    intro a b c hb hc
    exact Option.some.inj (hb.symm.trans hc)
  have htotal := ReflTransGen.total_of_right_unique hone hp.to_reflTransGen hq.to_reflTransGen
  rcases htotal with hpq | hqp
  · rcases reflTransGen_iff_eq_or_transGen.1 hpq with he | ht
    · exact .inl he.symm
    · exact .inr (.inl ht)
  · rcases reflTransGen_iff_eq_or_transGen.1 hqp with he | ht
    · exact .inl he
    · exact .inr (.inr ht)

theorem pairwise_ancestorsFrom {name current : String} {fuel : Nat} {found : List String}
    (hpath : ∀ a ∈ found, ReflTransGen h.Below a current)
    (hfound : found.Pairwise (TransGen h.Below)) :
    (h.ancestorsFrom name fuel found current).Pairwise (TransGen h.Below) := by
  induction fuel generalizing found current with
  | zero => exact hfound
  | succ fuel ih =>
    rw [ancestorsFrom]
    split
    · exact hfound
    · rename_i parent hp
      split
      · exact hfound
      · apply ih
        · intro a ha
          rcases List.mem_append.1 ha with ha | ha
          · exact (hpath a ha).tail hp
          · rw [List.mem_singleton.1 ha]
        · have hlast : ∀ a ∈ found, ∀ b ∈ [parent], TransGen h.Below a b := by
            intro a ha b hb
            rw [List.mem_singleton.1 hb]
            exact TransGen.tail' (hpath a ha) hp
          exact List.pairwise_append.2 ⟨hfound, List.pairwise_singleton _ _, hlast⟩

/-- The ancestors are listed from the nearest on. -/
theorem pairwise_ancestors (h : Hierarchy) (schema : String) :
    (h.ancestors schema).Pairwise (TransGen h.Below) :=
  pairwise_ancestorsFrom (fun _ ha => absurd ha List.not_mem_nil) List.Pairwise.nil

theorem nodup_ancestors (ha : h.Acyclic) (schema : String) : (h.ancestors schema).Nodup := by
  apply (h.pairwise_ancestors schema).imp
  rintro a b hab rfl
  exact ha a hab

theorem ancestors_eq_nil (ha : h.Acyclic) (hp : h.parent? schema = none) :
    h.ancestors schema = [] := by
  apply List.eq_nil_iff_forall_not_mem.2
  intro super hm
  exact not_transGen_below hp ((mem_ancestors ha).1 hm)

/-- The ancestors of a schema are its supertype and the ancestors of that one. -/
theorem ancestors_eq_cons (ha : h.Acyclic) {parent : String} (hp : h.parent? schema = some parent) :
    h.ancestors schema = parent :: h.ancestors parent := by
  have habove : ∀ super ∈ h.ancestors parent, TransGen h.Below parent super :=
    fun super hm => (mem_ancestors ha).1 hm
  have hnew : (parent :: h.ancestors parent).Nodup :=
    List.nodup_cons.2 ⟨fun hm => ha parent (habove parent hm), nodup_ancestors ha parent⟩
  have hperm : (h.ancestors schema).Perm (parent :: h.ancestors parent) := by
    rw [List.perm_ext_iff_of_nodup (nodup_ancestors ha schema) hnew]
    intro super
    rw [mem_ancestors ha, transGen_below_iff hp, List.mem_cons, mem_ancestors ha]
  -- both lists go from the nearest on, which leaves one order
  apply hperm.eq_of_pairwise _ (h.pairwise_ancestors schema)
    (List.pairwise_cons.2 ⟨habove, h.pairwise_ancestors parent⟩)
  intro a b _ _ hab hba
  exact absurd (hab.trans hba) (ha a)

theorem head?_ancestors (ha : h.Acyclic) (schema : String) :
    (h.ancestors schema).head? = h.parent? schema := by
  cases hp : h.parent? schema with
  | none => rw [ancestors_eq_nil ha hp, List.head?_nil]
  | some parent => rw [ancestors_eq_cons ha hp, List.head?_cons]

end Hierarchy

namespace Graph

variable {g : Graph} {c : Candidates} {h : Hierarchy}

/-- Two supertypes of one schema, neither of which is above the other. -/
def Branches (g : Graph) : Prop :=
  ∃ schema p q, TransGen g.Candidate schema p ∧ TransGen g.Candidate schema q ∧ p ≠ q ∧
    ¬TransGen g.Candidate p q ∧ ¬TransGen g.Candidate q p

/-- The ancestors of a schema are all its supertypes, once each and from the nearest to the root;
the first of them is its parent. -/
structure Lineage (g : Graph) (h : Hierarchy) (schema : String) : Prop where
  mem : ∀ super, super ∈ h.ancestors schema ↔ TransGen g.Candidate schema super
  nodup : (h.ancestors schema).Nodup
  ordered : (h.ancestors schema).Pairwise (TransGen g.Candidate)
  head : (h.ancestors schema).head? = h.parent? schema

/-- Candidates that are all direct are not reached from one another. -/
theorem branches_of_direct (hc : g.candidates = .ok c) {schema p q : String} {rest : List String}
    (hd : c.direct schema = p :: q :: rest) : g.Branches := by
  have hp : p ∈ c.direct schema := by simp [hd]
  have hq : q ∈ c.direct schema := by simp [hd]
  have hne : p ≠ q := by
    have hn := c.nodup_direct schema
    rw [hd, List.nodup_cons] at hn
    rintro rfl
    exact hn.1 List.mem_cons_self
  obtain ⟨hps, hpfar⟩ := Candidates.mem_direct.1 hp
  obtain ⟨hqs, hqfar⟩ := Candidates.mem_direct.1 hq
  have hpq := hqfar p hps hne
  have hqp := hpfar q hqs hne.symm
  rw [along_candidates hc] at hpq hqp
  exact ⟨schema, p, q, .single ((mem_candidates hc).1 hps), .single ((mem_candidates hc).1 hqs),
    hne, hpq, hqp⟩

section

variable (hc : g.candidates = .ok c) (hp : selectParents c c.keys .empty = .ok h.parents)
  (ha : ∀ schema, ¬TransGen g.Candidate schema schema)

include hc hp ha

theorem acyclic_of_selectParents : h.Acyclic := by
  intro schema ht
  exact ha schema (TransGen.mono (fun _ _ hb => candidate_of_selected hc hp hb) _ _ ht)

/-- The chosen parents lead to the same schemas as all candidates do. -/
theorem transGen_below_eq : TransGen h.Below = TransGen g.Candidate := by
  have he : ¬g.Entangled := by
    rintro ⟨-, p, q, -, -, -, hpq, hqp⟩
    exact ha p (hpq.trans hqp)
  funext schema super
  apply propext
  constructor
  · exact TransGen.mono (fun _ _ hb => candidate_of_selected hc hp hb) schema super
  · exact transGen_below hc hp he (acyclic_of_selectParents hc hp ha)

theorem not_branches_of_selectParents : ¬g.Branches := by
  rintro ⟨schema, p, q, hsp, hsq, hne, hpq, hqp⟩
  rw [← transGen_below_eq hc hp ha] at hsp hsq hpq hqp
  rcases Hierarchy.below_trichotomy hsp hsq with he | ht | ht
  · exact hne he
  · exact hpq ht
  · exact hqp ht

theorem lineage_of_selectParents (schema : String) : g.Lineage h schema := by
  have hacyclic := acyclic_of_selectParents hc hp ha
  have heq := transGen_below_eq hc hp ha
  have hpairwise := h.pairwise_ancestors schema
  refine ⟨?_, ?_, ?_, Hierarchy.head?_ancestors hacyclic schema⟩
  · intro super
    rw [Hierarchy.mem_ancestors hacyclic, heq]
  · exact Hierarchy.nodup_ancestors hacyclic schema
  · rw [← heq]
    exact hpairwise

end

/-- Without a cycle of candidates, the choice of parents is ambiguous exactly if some schema has
two supertypes neither of which is above the other; otherwise no cycle is found, and the ancestors
of each schema are all its supertypes, the nearest first. -/
theorem selectParents_linearises (hc : g.candidates = .ok c)
    (ha : ∀ schema, ¬TransGen g.Candidate schema schema) :
    ((∃ schema several, selectParents c c.keys .empty =
        .error (.ambiguousSupertype schema several)) ↔ g.Branches) ∧
      (¬g.Branches → ∃ parents, selectParents c c.keys .empty = .ok parents ∧
        findCycle parents = none ∧ ∀ children discriminations schema,
          g.Lineage ⟨parents, children, discriminations⟩ schema) := by
  cases hs : selectParents c c.keys .empty with
  | error e =>
    obtain ⟨schema, p, q, rest, hd, rfl⟩ := selectParents_eq_error hs
    have hb := branches_of_direct hc hd
    exact ⟨⟨fun _ => hb, fun _ => ⟨schema, _, rfl⟩⟩, fun hn => absurd hb hn⟩
  | ok parents =>
    have hp : ∀ children discriminations, selectParents c c.keys .empty =
        .ok (Hierarchy.mk parents children discriminations).parents := fun _ _ => hs
    have hnone := not_branches_of_selectParents hc (hp .empty .empty) ha
    have hcycle := findCycle_eq_none_iff.2 (acyclic_of_selectParents hc (hp .empty .empty) ha)
    refine ⟨⟨?_, fun hb => absurd hb hnone⟩, fun _ => ⟨parents, rfl, hcycle, ?_⟩⟩
    · rintro ⟨schema, several, he⟩
      cases he
    · intro children discriminations schema
      exact lineage_of_selectParents hc (hp children discriminations) ha schema

end Graph

/-- A supertype, one below it and one below that, to which the first maps a value. -/
def threeLevels : Document :=
  let super (branches : List Node) (mapping : List (String × String)) : Node :=
    .schema { Schema.empty with
      type := some (.single .object)
      properties := [("k", .schema { Schema.empty with type := some (.single .string) })]
      allOf := branches
      discriminator := some ⟨"k", mapping⟩ }
  ⟨"3.0.3", default, [("A", super [] [("c", "C")]),
    ("B", super [.ref "#/components/schemas/A"] []),
    ("C", .schema { Schema.empty with allOf := [.ref "#/components/schemas/B"] })], by decide⟩

/-- The mapping does not skip the level between. -/
theorem selectParents_linearises_three_levels : ∃ g c parents,
    threeLevels.resolve threeLevels.names = .ok g ∧ g.candidates = .ok c ∧
      (∀ schema, ¬TransGen g.Candidate schema schema) ∧ c.of "C" = ["A", "B"] ∧
      selectParents c c.keys .empty = .ok parents ∧ findCycle parents = none ∧
      (Hierarchy.mk parents .empty .empty).ancestors "C" = ["B", "A"] ∧
      g.Lineage ⟨parents, .empty, .empty⟩ "C" := by
  have hrun : ((threeLevels.resolve threeLevels.names).toOption.bind fun g =>
      g.candidates.toOption.bind fun c =>
        (selectParents c c.keys .empty).toOption.map fun parents =>
        (c.keys, c.of "B", c.of "C", (Hierarchy.mk parents .empty .empty).ancestors "C")) =
          some (["B", "C"], ["A"], ["A", "B"], ["B", "A"]) := by cbv
  obtain ⟨g, hg, hrun⟩ := toOption_bind_eq_some_iff.1 hrun
  obtain ⟨c, hc, hrun⟩ := toOption_bind_eq_some_iff.1 hrun
  obtain ⟨parents, hp, hrun⟩ := toOption_map_eq_some_iff.1 hrun
  simp only [Prod.mk.injEq] at hrun
  obtain ⟨hkeys, hB, hC, hancestors⟩ := hrun
  -- each candidate comes before the schema in name order
  have hstep : ∀ schema super, g.Candidate schema super → super < schema := by
    intro schema super hs
    have hm := (Graph.mem_candidates hc).2 hs
    have hk := Candidates.mem_keys_of_mem hm
    rw [hkeys] at hk
    rcases List.mem_cons.1 hk with rfl | hk
    · rw [hB, List.mem_singleton] at hm
      rw [hm]
      decide
    · rw [List.mem_singleton.1 hk, hC] at hm
      rw [List.mem_singleton.1 hk]
      rcases List.mem_cons.1 hm with rfl | hm
      · decide
      · rw [List.mem_singleton.1 hm]
        decide
  have ha : ∀ schema, ¬TransGen g.Candidate schema schema := by
    intro schema ht
    have hlt : ∀ super, TransGen g.Candidate schema super → super < schema := by
      intro super hs
      induction hs with
      | single h => exact hstep _ _ h
      | tail _ h ih => exact String.lt_trans (hstep _ _ h) ih
    exact String.lt_irrefl schema (hlt schema ht)
  obtain ⟨hiff, hlinear⟩ := Graph.selectParents_linearises hc ha
  have hnone : ¬g.Branches := by
    intro hb
    obtain ⟨schema, several, he⟩ := hiff.2 hb
    rw [hp] at he
    cases he
  obtain ⟨parents', hp', hcycle, hlineage⟩ := hlinear hnone
  rw [hp, Except.ok.injEq] at hp'
  subst hp'
  exact ⟨g, c, parents, hg, hc, ha, hC, hp, hcycle, hancestors, hlineage .empty .empty "C"⟩

end SchemaModel
