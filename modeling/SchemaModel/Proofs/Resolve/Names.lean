import SchemaModel.Proofs.Naming
import SchemaModel.Proofs.Resolve.Agreement

/-!
When no new names are needed any more, a name stands for one position, and the graph finds under
it what was resolved there (`Complete.find?_toGraph`).
-/

namespace SchemaModel

namespace Resolver

variable {scope : Scope} {order : List String} {r : Resolver}

theorem map_fst_renameAll (used : List String) (colliding : List (String × Pointer)) :
    (renameAll used colliding).map Prod.fst = colliding.map Prod.snd := by
  induction colliding generalizing used with
  | nil => rfl
  | cons e rest ih =>
    obtain ⟨name, pointer⟩ := e
    rw [renameAll, List.map_cons, List.map_cons, ih]

/-- The positions that get a new name. -/
def renamed (r : Resolver) : List Pointer := r.inlineRenames.map Prod.fst

theorem mem_renamed_iff {p : Pointer} : p ∈ r.renamed ↔
    (∃ name, (name, p) ∈ r.collisions) ∧ ∀ e ∈ r.collisions, ¬e.2.encloses p := by
  simp [renamed, inlineRenames, map_fst_renameAll]

/-- A colliding position gets a new name, or else a position around it does. -/
theorem exists_renamed {e : String × Pointer} (he : e ∈ r.collisions) :
    ∃ p ∈ r.renamed, p = e.2 ∨ p.encloses e.2 := by
  induction hn : e.2.steps.length using Nat.strongRecOn generalizing e with
  | ind n ih =>
    by_cases houter : ∀ owner ∈ r.collisions, ¬owner.2.encloses e.2
    · exact ⟨e.2, mem_renamed_iff.2 ⟨⟨e.1, he⟩, houter⟩, .inl rfl⟩
    · simp only [not_forall, not_not] at houter
      obtain ⟨owner, howner, hencloses⟩ := houter
      have hlt := Pointer.length_lt_of_encloses hencloses
      obtain ⟨p, hp, hpo⟩ := ih _ (by omega) howner rfl
      refine ⟨p, hp, .inr ?_⟩
      rcases hpo with rfl | hpo
      · exact hencloses
      · exact Pointer.encloses_trans hpo hencloses

theorem collisions_eq_nil (h : r.inlineRenames = []) : r.collisions = [] := by
  apply List.eq_nil_iff_forall_not_mem.2
  intro e he
  obtain ⟨p, hp, -⟩ := exists_renamed he
  simp [renamed, h] at hp

theorem eq_of_drop_one_eq_nil {α : Type} {l : List α} (h : l.drop 1 = []) {a b : α} (ha : a ∈ l)
    (hb : b ∈ l) : a = b := by
  match l, h with
  | [], _ => cases ha
  | [c], _ => rw [List.mem_singleton.1 ha, List.mem_singleton.1 hb]

theorem position_eq_of_name (h : r.inlineRenames = []) {p q : Pointer} {s t : Resolved}
    (hs : (p, s) ∈ r.resolved) (ht : (q, t) ∈ r.resolved) (hn : s.name = t.name) : p = q := by
  have hcollisions := collisions_eq_nil h
  have hsome : (r.boundNames.find? t.name).isSome := isSome_find?_boundNames.2 ⟨_, ht, rfl⟩
  obtain ⟨positions, hfind⟩ := Option.isSome_iff_exists.1 hsome
  have hto : r.boundTo t.name = positions := by rw [boundTo, hfind, Option.getD_some]
  have hp : p ∈ positions.values := by
    rw [NameMap.mem_values_iff, ← hto]
    exact ⟨p.text, find?_boundTo.2 ⟨rfl, s, hs, hn⟩⟩
  have hq : q ∈ positions.values := by
    rw [NameMap.mem_values_iff, ← hto]
    exact ⟨q.text, find?_boundTo.2 ⟨rfl, t, ht, rfl⟩⟩
  have hone : positions.values.drop 1 = [] := by
    have hall := List.flatMap_eq_nil_iff.1 hcollisions _ (NameMap.mem_toList_iff.2 hfind)
    exact List.map_eq_nil_iff.1 hall
  exact eq_of_drop_one_eq_nil hone hp hq

/-- The graph has a schema under a name exactly if a site of this name was resolved to it. -/
theorem Complete.find?_toGraph [Libraries] (hr : Complete scope order r) (h : r.inlineRenames = [])
    {name : String} {s : Resolved} :
    r.toGraph.schemas.find? name = some s ↔ ∃ site shape, scope.Visits order site ∧
      scope.HasShape site shape ∧ site.name = name ∧ s = site.resolved shape := by
  have hvalues : ∀ t, t ∈ (NameMap.ofList (r.resolved.map fun e => (e.1.text, e.2))).values ↔
      ∃ p, (p, t) ∈ r.resolved := by
    intro t
    rw [NameMap.mem_values_iff]
    simp only [NameMap.find?_ofList_of_singleValued hr.singleValued, List.mem_map,
      Prod.mk.injEq]
    constructor
    · rintro ⟨text, ⟨p, t'⟩, hm, -, rfl⟩
      exact ⟨p, hm⟩
    · rintro ⟨p, hm⟩
      exact ⟨p.text, (p, t), hm, rfl, rfl⟩
  -- a name stands for one position, and a position for one schema
  have hsingle : SingleValued
      ((NameMap.ofList (r.resolved.map fun e => (e.1.text, e.2))).values.map
        fun s => (s.name, s)) := by
    intro name a b ha hb
    simp only [List.mem_map, Prod.mk.injEq, hvalues] at ha hb
    obtain ⟨a, ⟨p, hp⟩, hna, rfl⟩ := ha
    obtain ⟨b, ⟨q, hq⟩, hnb, rfl⟩ := hb
    have hpq := position_eq_of_name h hp hq (hna.trans hnb.symm)
    subst hpq
    exact hr.singleValued p.text a b (List.mem_map.2 ⟨_, hp, rfl⟩) (List.mem_map.2 ⟨_, hq, rfl⟩)
  unfold toGraph
  simp only [NameMap.find?_ofList_of_singleValued hsingle, List.mem_map, hvalues, Prod.mk.injEq,
    hr.mem_resolved_iff]
  constructor
  · rintro ⟨t, ⟨p, site, shape, hv, hshape, -, rfl⟩, hn, rfl⟩
    exact ⟨site, shape, hv, hshape, hn, rfl⟩
  · rintro ⟨site, shape, hv, hshape, hn, rfl⟩
    exact ⟨_, ⟨site.pointer, site, shape, hv, hshape, rfl, rfl⟩, hn, rfl⟩

theorem renameAll_notMem {used : List String} {colliding : List (String × Pointer)}
    {e : Pointer × String} (h : e ∈ renameAll used colliding) : e.2 ∉ used := by
  induction colliding generalizing used with
  | nil => cases h
  | cons first rest ih =>
    obtain ⟨name, pointer⟩ := first
    rcases List.mem_cons.1 h with rfl | h
    · exact Naming.fresh_notMem name used
    · intro hm
      exact ih h (List.mem_cons_of_mem _ hm)

theorem inlineRenames_notMem {e : Pointer × String} (h : e ∈ r.inlineRenames) :
    e.2 ∉ r.scope.document.names := by
  intro hm
  exact renameAll_notMem h (List.mem_append_left _ hm)

end Resolver

namespace Scope

/-- No schema is renamed to a component. -/
def AvoidsComponents (scope : Scope) : Prop :=
  ∀ e ∈ scope.renames, e.2 ∉ scope.document.names

theorem AvoidsComponents.inlineName_notMem {scope : Scope} (h : scope.AvoidsComponents)
    (base : String) (pointer : Pointer) : scope.inlineName base pointer ∉ scope.document.names := by
  unfold inlineName
  split
  · rename_i name hl
    exact h _ (mem_of_lookup hl)
  · exact Naming.fresh_notMem base _

end Scope

variable [Libraries]

namespace Resolver

variable {order : List String}

/-- The new names with which the passes start, one after another: none at first, then those for
the positions that collide, as long as there are any. -/
inductive Rounds (d : Document) (order : List String) : List (Pointer × String) → Prop where
  | start : Rounds d order []
  | next {renames : List (Pointer × String)} {r : Resolver} (before : Rounds d order renames)
      (resolves : pass ⟨d, renames⟩ order = .ok r) (collides : r.inlineRenames ≠ []) :
      Rounds d order (r.inlineRenames ++ renames)

theorem Rounds.avoidsComponents {d : Document} {renames : List (Pointer × String)}
    (h : Rounds d order renames) : Scope.AvoidsComponents ⟨d, renames⟩ := by
  induction h with
  | start =>
    intro e he
    cases he
  | next before resolves collides ih =>
    intro e he
    rcases List.mem_append.1 he with he | he
    · have hnew := inlineRenames_notMem he
      rwa [(pass_complete resolves).sound.scope_eq] at hnew
    · exact ih e he

/-- What the last pass ends with: the one that needs no new names. -/
def LastPass (d : Document) (order : List String) (r : Resolver) : Prop :=
  ∃ renames, Rounds d order renames ∧ pass ⟨d, renames⟩ order = .ok r ∧ r.inlineRenames = []

theorem passes_eq_ok {fuel : Nat} {d : Document} {renames : List (Pointer × String)} {g : Graph}
    (hr : Rounds d order renames) (h : passes fuel ⟨d, renames⟩ order = .ok g) :
    ∃ r, LastPass d order r ∧ g = r.toGraph := by
  induction fuel generalizing renames with
  | zero => cases h
  | succ fuel ih =>
    rw [passes] at h
    cases hp : pass ⟨d, renames⟩ order with
    | error e =>
      simp only [hp] at h
      cases h
    | ok r =>
      simp only [hp] at h
      cases hn : r.inlineRenames with
      | nil =>
        simp only [hn] at h
        cases h
        exact ⟨r, ⟨renames, hr, hp, hn⟩, rfl⟩
      | cons first rest =>
        simp only [hn] at h
        have hnext := hr.next hp (by simp [hn])
        rw [hn] at hnext
        exact ih hnext h

end Resolver

/-- A graph is made from what the last pass ends with. -/
theorem Document.lastPass_of_resolve {d : Document} {order : List String} {g : Graph}
    (h : d.resolve order = .ok g) : ∃ r, Resolver.LastPass d order r ∧ g = r.toGraph :=
  Resolver.passes_eq_ok .start h

theorem Document.resolve_eq_ok {d : Document} {order : List String} {g : Graph}
    (h : d.resolve order = .ok g) : ∃ renames r, Scope.AvoidsComponents ⟨d, renames⟩ ∧
      Resolver.Complete ⟨d, renames⟩ order r ∧ r.inlineRenames = [] ∧ g = r.toGraph := by
  obtain ⟨r, ⟨renames, hr, hp, hn⟩, hg⟩ := lastPass_of_resolve h
  exact ⟨renames, r, hr.avoidsComponents, Resolver.pass_complete hp, hn, hg⟩

end SchemaModel
