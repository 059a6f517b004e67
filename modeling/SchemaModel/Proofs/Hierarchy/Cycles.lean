import Mathlib.Logic.Relation
import SchemaModel.Resolve.Resolver
import SchemaModel.Proofs.Computed
import SchemaModel.Proofs.Hierarchy.Ancestors

/-!
Which cycles of declared supertypes are found. Of the candidates of a schema only those that are
not reached from another one are looked at, so two candidates that reach each other hide each
other. Where no schema has two such candidates, each cycle is an error and each candidate is an
ancestor (`Graph.keepsSupertypes_iff`); the converse holds wherever the analysis succeeds.
-/

namespace SchemaModel

open Relation

namespace Candidates

variable {c : Candidates} {schema super : String}

theorem mem_above : super ∈ c.above schema ↔ TransGen (Along c.of) schema super :=
  mem_reach fun _ _ hb => (mem_nodes_of_mem hb).2

theorem mem_direct : super ∈ c.direct schema ↔ super ∈ c.of schema ∧
    ∀ other ∈ c.of schema, other ≠ super → ¬TransGen (Along c.of) other super := by
  simp [direct, mem_above]

/-- Two candidates of one schema reach each other. -/
def Entangled (c : Candidates) : Prop :=
  ∃ schema, ∃ p ∈ c.of schema, ∃ q ∈ c.of schema, p ≠ q ∧
    TransGen (Along c.of) p q ∧ TransGen (Along c.of) q p

/-- `nearer` comes before `super` among the candidates of a schema. -/
def Nearer (c : Candidates) (schema super nearer : String) : Prop :=
  super ∈ c.of schema ∧ nearer ∈ c.of schema ∧ nearer ≠ super ∧
    TransGen (Along c.of) nearer super

theorem Nearer.trans (he : ¬c.Entangled) {a b d : String} (hab : c.Nearer schema a b)
    (hbd : c.Nearer schema b d) : c.Nearer schema a d := by
  obtain ⟨ha, hb, -, hba⟩ := hab
  obtain ⟨-, hd, hne, hdb⟩ := hbd
  refine ⟨ha, hd, ?_, hdb.trans hba⟩
  rintro rfl
  exact he ⟨schema, d, hd, b, hb, hne, hdb, hba⟩

/-- Each candidate is direct or reached from a direct one. -/
theorem exists_direct (he : ¬c.Entangled) (hs : super ∈ c.of schema) :
    ∃ d ∈ c.direct schema, ReflTransGen (Along c.of) d super := by
  have hacyclic : ∀ a, ¬TransGen (c.Nearer schema) a a := by
    intro a ha
    have htrans : IsTrans String (c.Nearer schema) := ⟨fun _ _ _ => Nearer.trans he⟩
    rw [transGen_eq_self] at ha
    exact ha.2.2.1 rfl
  have hwf := wellFounded_of_acyclic (fun a b hab => hab.2.1) hacyclic
  induction super using hwf.induction with
  | _ super ih =>
    -- from a candidate that is not direct go on to a nearer one
    by_cases hd : super ∈ c.direct schema
    · exact ⟨super, hd, .refl⟩
    · obtain ⟨other, ho, hne, hr⟩ : ∃ other ∈ c.of schema, other ≠ super ∧
          TransGen (Along c.of) other super := by
        by_contra hnone
        exact hd (mem_direct.2 ⟨hs, fun other ho hne hr => hnone ⟨other, ho, hne, hr⟩⟩)
      obtain ⟨d, hd, hdo⟩ := ih other ⟨hs, ho, hne, hr⟩ ho
      exact ⟨d, hd, hdo.trans hr.to_reflTransGen⟩

end Candidates

namespace Graph

variable {g : Graph} {h : Hierarchy}

theorem along_candidates {c : Candidates} (hc : g.candidates = .ok c) :
    Along c.of = g.Candidate := by
  funext schema super
  exact propext (mem_candidates hc)

/-- Some schema has two candidate supertypes that reach each other. -/
def Entangled (g : Graph) : Prop :=
  ∃ schema p q, g.Candidate schema p ∧ g.Candidate schema q ∧ p ≠ q ∧
    TransGen g.Candidate p q ∧ TransGen g.Candidate q p

theorem entangled_candidates {c : Candidates} (hc : g.candidates = .ok c) :
    c.Entangled → g.Entangled := by
  rintro ⟨schema, p, hp, q, hq, hne, hpq, hqp⟩
  rw [along_candidates hc] at hpq hqp
  exact ⟨schema, p, q, (mem_candidates hc).1 hp, (mem_candidates hc).1 hq, hne, hpq, hqp⟩

/-- Where the parents are chosen and nothing is hidden, each candidate of a schema is its
supertype or a candidate further up. -/
theorem exists_below {c : Candidates} (hc : g.candidates = .ok c)
    (hp : selectParents c c.keys .empty = .ok h.parents) (he : ¬g.Entangled)
    {schema super : String} (hs : g.Candidate schema super) :
    ∃ parent, h.Below schema parent ∧ ReflTransGen g.Candidate parent super := by
  have hm : super ∈ c.of schema := (mem_candidates hc).2 hs
  obtain ⟨d, hd, hr⟩ := Candidates.exists_direct (mt (entangled_candidates hc) he) hm
  rw [along_candidates hc] at hr
  refine ⟨d, ?_, hr⟩
  rw [Hierarchy.Below, parent?_eq_some_iff hp]
  rcases (selectParents_eq_ok hp).1 schema (Candidates.mem_keys_of_mem hm) with hn | ⟨other, ho⟩
  · rw [hn] at hd
    exact absurd hd List.not_mem_nil
  · rw [ho] at hd ⊢
    rw [List.mem_singleton.1 hd]

theorem wellFounded_below (ha : h.Acyclic) : WellFounded (flip h.Below) :=
  wellFounded_of_acyclic (fun _ _ hb => hb.mem_values) ha

/-- All that is reached along candidates is then an ancestor. -/
theorem transGen_below {c : Candidates} (hc : g.candidates = .ok c)
    (hp : selectParents c c.keys .empty = .ok h.parents) (he : ¬g.Entangled) (ha : h.Acyclic)
    {schema super : String} (ht : TransGen g.Candidate schema super) :
    TransGen h.Below schema super := by
  induction schema using (wellFounded_below ha).induction with
  | _ schema ih =>
    obtain ⟨other, ho, hr⟩ := TransGen.head'_iff.1 ht
    obtain ⟨parent, hb, hpo⟩ := exists_below hc hp he ho
    rcases reflTransGen_iff_eq_or_transGen.1 (hpo.trans hr) with rfl | hps
    · exact .single hb
    · exact .head hb (ih parent hb hps)

/-- A schema on a cycle of candidates has a supertype on one, so that there would be no end to
the way up. -/
theorem not_transGen_candidate (hh : g.hierarchy = .ok h) (he : ¬g.Entangled) (schema : String) :
    ¬TransGen g.Candidate schema schema := by
  obtain ⟨c, hc, hp, -⟩ := hierarchy_eq_ok hh
  induction schema using (wellFounded_below (acyclic_of_hierarchy hh)).induction with
  | _ schema ih =>
    intro ht
    obtain ⟨super, hs, hr⟩ := TransGen.head'_iff.1 ht
    -- the supertype is on the way to the candidate, and so on a cycle as well
    obtain ⟨parent, hb, hps⟩ := exists_below hc hp he hs
    exact ih parent hb (TransGen.tail' (hps.trans hr) (candidate_of_parent? hh hb))

/-- A candidate supertype other than the schema itself. -/
def Super (g : Graph) (schema super : String) : Prop :=
  g.Candidate schema super ∧ schema ≠ super

theorem transGen_super {a b : String} (ht : TransGen g.Candidate a b) (hne : a ≠ b) :
    TransGen g.Super a b := by
  induction ht with
  | single h => exact .single ⟨h, hne⟩
  | @tail b d hab hbd ih =>
    by_cases hd : b = d
    · subst hd
      exact ih hne
    · by_cases ha : a = b
      · subst ha
        exact .single ⟨hbd, hne⟩
      · exact (ih ha).tail ⟨hbd, hd⟩

/-- A cycle of supertypes is an error, and where there is none each candidate is an ancestor. -/
def KeepsSupertypes (g : Graph) : Prop :=
  ((∃ schema, TransGen g.Super schema schema) → ∃ e, g.hierarchy = .error e) ∧
    ∀ h, g.hierarchy = .ok h → ∀ schema super, g.Super schema super → super ∈ h.ancestors schema

theorem keepsSupertypes_of_error {e : ModelError} (hh : g.hierarchy = .error e) :
    g.KeepsSupertypes := by
  refine ⟨fun _ => ⟨e, hh⟩, ?_⟩
  intro h ho
  rw [hh] at ho
  cases ho

theorem keepsSupertypes_of_not_entangled (hh : g.hierarchy = .ok h) (he : ¬g.Entangled) :
    g.KeepsSupertypes := by
  constructor
  · rintro ⟨schema, hs⟩
    have hc := TransGen.mono (fun _ _ hs => hs.1) _ _ hs
    exact absurd hc (not_transGen_candidate hh he schema)
  · intro h' hh' schema super hs
    rw [hh, Except.ok.injEq] at hh'
    subst hh'
    have ha := acyclic_of_hierarchy hh
    obtain ⟨c, hc, hp, -⟩ := hierarchy_eq_ok hh
    rw [Hierarchy.mem_ancestors ha]
    exact transGen_below hc hp he ha (.single hs.1)

/-- Supertypes are kept exactly where the analysis fails or no two candidates hide each other. -/
theorem keepsSupertypes_iff (g : Graph) :
    g.KeepsSupertypes ↔ (∃ e, g.hierarchy = .error e) ∨ ¬g.Entangled := by
  constructor
  · intro hk
    by_cases he : g.Entangled
    · obtain ⟨-, p, q, -, -, hne, hpq, hqp⟩ := he
      have hcycle : TransGen g.Super p p :=
        (transGen_super hpq hne).trans (transGen_super hqp hne.symm)
      exact .inl (hk.1 ⟨p, hcycle⟩)
    · exact .inr he
  · rintro (⟨e, hh⟩ | he)
    · exact keepsSupertypes_of_error hh
    · cases hh : g.hierarchy with
      | error e => exact keepsSupertypes_of_error hh
      | ok h => exact keepsSupertypes_of_not_entangled hh he

end Graph

/-- Three supertypes, each a union of the other two. -/
def triangle : Document :=
  let union (members : List String) : Node := .schema { Schema.empty with
    type := some (.single .object)
    properties := [("k", .schema { Schema.empty with type := some (.single .string) })]
    oneOf := members.map fun name => .ref ("#/components/schemas/" ++ name)
    discriminator := some ⟨"k", []⟩ }
  ⟨"3.0.3", default, [("A", union ["B", "C"]), ("B", union ["A", "C"]),
    ("C", union ["A", "B"])], by decide⟩

/-- The candidates hide each other: the cycle is not found and no supertype is left. -/
theorem triangle_not_keepsSupertypes : ∃ g h, triangle.resolve triangle.names = .ok g ∧
    g.hierarchy = .ok h ∧ TransGen g.Super "A" "A" ∧ h.ancestors "A" = [] ∧
      ¬g.KeepsSupertypes := by
  have hrun : ((triangle.resolve triangle.names).toOption.bind fun g =>
      g.hierarchy.toOption.bind fun h => g.candidates.toOption.map fun c =>
        (h.ancestors "A", c.of "A", c.of "B")) = some ([], ["B", "C"], ["A", "C"]) := by cbv
  obtain ⟨g, hg, hrun⟩ := toOption_bind_eq_some_iff.1 hrun
  obtain ⟨h, hh, hrun⟩ := toOption_bind_eq_some_iff.1 hrun
  obtain ⟨c, hc, hrun⟩ := toOption_map_eq_some_iff.1 hrun
  simp only [Prod.mk.injEq] at hrun
  obtain ⟨hnone, hA, hB⟩ := hrun
  have hAB : g.Super "A" "B" := ⟨(Graph.mem_candidates hc).1 (by simp [hA]), by decide⟩
  have hBA : g.Super "B" "A" := ⟨(Graph.mem_candidates hc).1 (by simp [hB]), by decide⟩
  refine ⟨g, h, hg, hh, .tail (.single hAB) hBA, hnone, ?_⟩
  intro hk
  have hm := hk.2 h hh "A" "B" hAB
  rw [hnone] at hm
  exact absurd hm List.not_mem_nil

end SchemaModel
