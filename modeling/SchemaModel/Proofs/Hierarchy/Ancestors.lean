import Mathlib.Data.List.Nodup
import SchemaModel.Proofs.Hierarchy.Parents
import SchemaModel.Proofs.Hierarchy.Reach

/-!
A hierarchy that is found has no cycle of supertypes, and the ancestors of a schema are all that
are met when one goes on from supertype to supertype (`mem_ancestors`). The number of steps that
is allowed for is never short, since the schemas on the way are distinct.
-/

namespace SchemaModel

open Relation

/-- `super` is the supertype of `schema`. -/
def Hierarchy.Below (h : Hierarchy) (schema super : String) : Prop :=
  h.parent? schema = some super

/-- No schema is met again on the way up from it. -/
def Hierarchy.Acyclic (h : Hierarchy) : Prop := ∀ schema, ¬TransGen h.Below schema schema

namespace Hierarchy

variable {h : Hierarchy}

theorem Below.mem_keys {schema super : String} (hb : h.Below schema super) :
    schema ∈ h.parents.keys := NameMap.mem_keys_iff.2 ⟨super, hb⟩

theorem Below.mem_values {schema super : String} (hb : h.Below schema super) :
    super ∈ h.parents.values := NameMap.mem_values_iff.2 ⟨schema, hb⟩

/-- From a schema on, the way up is that from its supertype. -/
theorem transGen_below_iff {schema parent super : String} (hp : h.parent? schema = some parent) :
    TransGen h.Below schema super ↔ super = parent ∨ TransGen h.Below parent super := by
  have hone : ∀ other, h.Below schema other → other = parent := by
    intro other ho
    exact Option.some.inj (ho.symm.trans hp)
  constructor
  · intro ht
    obtain ⟨other, ho, hr⟩ := TransGen.head'_iff.1 ht
    obtain rfl := hone other ho
    rcases reflTransGen_iff_eq_or_transGen.1 hr with rfl | hr
    · exact .inl rfl
    · exact .inr hr
  · rintro (rfl | ht)
    · exact .single hp
    · exact .head hp ht

theorem not_transGen_below {schema super : String} (hp : h.parent? schema = none) :
    ¬TransGen h.Below schema super := by
  intro ht
  obtain ⟨other, ho, -⟩ := TransGen.head'_iff.1 ht
  rw [Below, hp] at ho
  cases ho

/-- Distinct schemas on the way to one that has a supertype are no more than the schemas that
have one. -/
theorem length_le_size {path : List String} {current parent : String}
    (hp : h.parent? current = some parent) (hn : path.Nodup)
    (hpath : ∀ a ∈ path, ReflTransGen h.Below a current) : path.length ≤ h.parents.size := by
  have hsub : path ⊆ h.parents.keys := by
    intro a ha
    rcases (hpath a ha).cases_head with rfl | ⟨b, hb, -⟩
    · exact Below.mem_keys hp
    · exact hb.mem_keys
  have hle := (hn.subperm hsub).length_le
  rwa [NameMap.keys, List.length_map] at hle

theorem mem_ancestorsFrom (ha : h.Acyclic) {name current super : String} {fuel : Nat}
    {found : List String} (hn : (name :: found).Nodup)
    (hpath : ∀ a ∈ name :: found, ReflTransGen h.Below a current)
    (hfuel : h.parents.size ≤ fuel + found.length) :
    super ∈ h.ancestorsFrom name fuel found current ↔
      super ∈ found ∨ TransGen h.Below current super := by
  induction fuel generalizing found current with
  | zero =>
    -- all schemas that have a supertype were met, so this one has none
    have hp : h.parent? current = none := by
      by_contra hp
      obtain ⟨parent, hp⟩ := Option.ne_none_iff_exists'.1 hp
      have hle := length_le_size hp hn hpath
      rw [List.length_cons] at hle
      omega
    simp [ancestorsFrom, not_transGen_below hp]
  | succ fuel ih =>
    rw [ancestorsFrom]
    cases hp : h.parent? current with
    | none => simp [not_transGen_below hp]
    | some parent =>
      -- all that were met lead here, so meeting one again would close a cycle
      have hnew : parent ∉ name :: found := by
        intro hm
        exact ha parent (TransGen.tail' (hpath parent hm) hp)
      have hskip : ¬(parent = name || found.contains parent) = true := by
        simpa [not_or] using hnew
      dsimp only
      rw [if_neg hskip, ih, List.mem_append, List.mem_singleton, transGen_below_iff hp, or_assoc]
      · rw [← List.cons_append]
        exact hn.append (List.nodup_singleton parent) (by simpa using hnew)
      · intro a hm
        rw [← List.cons_append] at hm
        rcases List.mem_append.1 hm with hm | hm
        · exact (hpath a hm).tail hp
        · rw [List.mem_singleton.1 hm]
      · rw [List.length_append, List.length_singleton]
        omega

/-- The ancestors of a schema are all the schemas above it. -/
theorem mem_ancestors (ha : h.Acyclic) {schema super : String} :
    super ∈ h.ancestors schema ↔ TransGen h.Below schema super := by
  rw [ancestors, mem_ancestorsFrom ha (List.nodup_singleton schema)]
  · simp
  · intro a hm
    rw [List.mem_singleton.1 hm]
  · exact Nat.le_refl _

end Hierarchy

namespace Graph

variable {g : Graph} {h : Hierarchy}

/-- What the search for a cycle reaches from a schema are the schemas above it. -/
theorem mem_reach_parents {schema super : String} :
    super ∈ reach (h.parents.keys ++ h.parents.values).eraseDups
        (fun name => (h.parents.find? name).toList) schema ↔ TransGen h.Below schema super := by
  have hedges : ∀ a, ∀ b ∈ (h.parents.find? a).toList,
      b ∈ (h.parents.keys ++ h.parents.values).eraseDups := by
    intro a b hb
    rw [List.mem_eraseDups]
    exact List.mem_append_right _ (Hierarchy.Below.mem_values (Option.mem_toList.1 hb))
  have hbelow : Along (fun name => (h.parents.find? name).toList) = h.Below := by
    funext a b
    exact propext Option.mem_toList
  rw [mem_reach hedges, hbelow]

/-- The search finds no cycle exactly if there is none. -/
theorem findCycle_eq_none_iff : findCycle h.parents = none ↔ h.Acyclic := by
  rw [findCycle, Option.map_eq_none_iff, List.find?_eq_none]
  simp only [List.contains_iff_mem, mem_reach_parents]
  constructor
  · intro hnone name ht
    obtain ⟨b, hb, -⟩ := TransGen.head'_iff.1 ht
    exact hnone name hb.mem_keys ht
  · intro ha name _
    exact ha name

theorem acyclic_of_hierarchy (hh : g.hierarchy = .ok h) : h.Acyclic := by
  obtain ⟨c, -, -, hnone, -⟩ := hierarchy_eq_ok hh
  exact findCycle_eq_none_iff.1 hnone

end Graph

end SchemaModel
