import Mathlib.Data.Finset.Card
import Mathlib.Logic.Relation
import SchemaModel.Hierarchy.Reach

/-!
What is reached along edges is their transitive closure (`mem_reach`). The search keeps one
invariant: each node is still to do or seen, and each edge out of what is seen leads to what is
seen or on the frontier. A relation on finitely many names that has no cycle is well-founded.
-/

namespace SchemaModel

open Relation

/-- One step along the edges. -/
def Along (edges : String → List String) (a b : String) : Prop := b ∈ edges a

variable {edges : String → List String} {nodes todo frontier seen : List String}

/-- A search that has seen all that can be passed over. -/
structure Explores (edges : String → List String) (nodes todo frontier seen : List String) :
    Prop where
  cover : ∀ a ∈ nodes, a ∈ todo ∨ a ∈ seen
  within : ∀ a ∈ frontier, a ∈ nodes
  next : ∀ a ∈ seen, ∀ b ∈ edges a, b ∈ seen ∨ b ∈ frontier

namespace Explores

theorem start (hf : ∀ a ∈ frontier, a ∈ nodes) : Explores edges nodes nodes frontier [] where
  cover _ h := .inl h
  within := hf
  next _ h := absurd h List.not_mem_nil

theorem visit {name : String} {rest : List String}
    (h : Explores edges nodes todo (name :: rest) seen) (hn : ∀ a ∈ edges name, a ∈ nodes) :
    Explores edges nodes (todo.erase name) (edges name ++ rest) (seen ++ [name]) where
  cover a ha := by
    rcases h.cover a ha with ht | hs
    · by_cases he : a = name
      · exact .inr (by simp [he])
      · exact .inl ((List.mem_erase_of_ne he).2 ht)
    · exact .inr (List.mem_append_left _ hs)
  within a ha := by
    rcases List.mem_append.1 ha with ha | ha
    · exact hn a ha
    · exact h.within a (List.mem_cons_of_mem _ ha)
  next a ha b hb := by
    rcases List.mem_append.1 ha with ha | ha
    · rcases h.next a ha b hb with hs | hf
      · exact .inl (List.mem_append_left _ hs)
      · rcases List.mem_cons.1 hf with rfl | hf
        · exact .inl (List.mem_append_right _ List.mem_cons_self)
        · exact .inr (List.mem_append_right _ hf)
    · obtain rfl := List.mem_singleton.1 ha
      exact .inr (List.mem_append_left _ hb)

theorem skip {name : String} {rest : List String}
    (h : Explores edges nodes todo (name :: rest) seen) (hm : name ∉ todo) :
    Explores edges nodes todo rest seen where
  cover := h.cover
  within a ha := h.within a (List.mem_cons_of_mem _ ha)
  next a ha b hb := by
    -- the head of the frontier is passed over, but it was seen
    rcases h.next a ha b hb with hs | hf
    · exact .inl hs
    · rcases List.mem_cons.1 hf with rfl | hf
      · exact .inl ((h.cover b (h.within b List.mem_cons_self)).resolve_left hm)
      · exact .inr hf

end Explores

theorem subset_explore : ∀ a ∈ seen, a ∈ explore edges todo frontier seen := by
  intro a ha
  fun_induction explore edges todo frontier seen with
  | case1 => exact ha
  | case2 todo seen name rest hm ih => exact ih (List.mem_append_left _ ha)
  | case3 todo seen name rest hm ih => exact ih ha

/-- The outcome of a search is closed, and the frontier is in it. -/
theorem explore_closed (hedges : ∀ a, ∀ b ∈ edges a, b ∈ nodes)
    (h : Explores edges nodes todo frontier seen) :
    (∀ a ∈ frontier, a ∈ explore edges todo frontier seen) ∧
      ∀ a ∈ explore edges todo frontier seen, ∀ b ∈ edges a,
        b ∈ explore edges todo frontier seen := by
  fun_induction explore edges todo frontier seen with
  | case1 todo seen =>
    refine ⟨fun a ha => absurd ha List.not_mem_nil, ?_⟩
    intro a ha b hb
    exact (h.next a ha b hb).resolve_right List.not_mem_nil
  | case2 todo seen name rest hm ih =>
    obtain ⟨hfrontier, hclosed⟩ := ih (h.visit (hedges name))
    refine ⟨?_, hclosed⟩
    intro a ha
    rcases List.mem_cons.1 ha with rfl | ha
    · exact subset_explore a (List.mem_append_right _ List.mem_cons_self)
    · exact hfrontier a (List.mem_append_right _ ha)
  | case3 todo seen name rest hm ih =>
    obtain ⟨hfrontier, hclosed⟩ := ih (h.skip hm)
    refine ⟨?_, hclosed⟩
    intro a ha
    rcases List.mem_cons.1 ha with rfl | ha
    · exact subset_explore a ((h.cover a (h.within a List.mem_cons_self)).resolve_left hm)
    · exact hfrontier a ha

/-- A search meets nothing that is not reached from its frontier. -/
theorem explore_sound {b : String} (hb : b ∈ explore edges todo frontier seen) :
    b ∈ seen ∨ ∃ a ∈ frontier, ReflTransGen (Along edges) a b := by
  fun_induction explore edges todo frontier seen with
  | case1 => exact .inl hb
  | case2 todo seen name rest hm ih =>
    rcases ih hb with hs | ⟨a, ha, hr⟩
    · rcases List.mem_append.1 hs with hs | hs
      · exact .inl hs
      · obtain rfl := List.mem_singleton.1 hs
        exact .inr ⟨b, List.mem_cons_self, .refl⟩
    · rcases List.mem_append.1 ha with ha | ha
      · exact .inr ⟨name, List.mem_cons_self, .head ha hr⟩
      · exact .inr ⟨a, List.mem_cons_of_mem _ ha, hr⟩
  | case3 todo seen name rest hm ih =>
    rcases ih hb with hs | ⟨a, ha, hr⟩
    · exact .inl hs
    · exact .inr ⟨a, List.mem_cons_of_mem _ ha, hr⟩

/-- Where no edge leaves the nodes, what is reached is the transitive closure of the edges. -/
theorem mem_reach (hedges : ∀ a, ∀ b ∈ edges a, b ∈ nodes) {a b : String} :
    b ∈ reach nodes edges a ↔ TransGen (Along edges) a b := by
  unfold reach
  constructor
  · intro hb
    rcases explore_sound hb with hs | ⟨c, hc, hr⟩
    · exact absurd hs List.not_mem_nil
    · exact TransGen.head' hc hr
  · intro hr
    obtain ⟨hfrontier, hclosed⟩ := explore_closed hedges (Explores.start (hedges a))
    induction hr with
    | single h => exact hfrontier _ h
    | tail _ h ih => exact hclosed _ ih _ h

/-- A relation whose steps end in a finite set and that has no cycle cannot be followed for ever:
fewer and fewer names of the set are left to be reached. -/
theorem wellFounded_of_acyclic {r : String → String → Prop} {l : List String}
    (hl : ∀ a b, r a b → b ∈ l) (hr : ∀ a, ¬TransGen r a a) : WellFounded (flip r) := by
  classical
  let left (a : String) : Finset String := l.toFinset.filter (TransGen r a)
  have hlt : ∀ a b, r a b → (left b).card < (left a).card := by
    intro a b hab
    apply Finset.card_lt_card
    rw [Finset.ssubset_iff_of_subset]
    · refine ⟨b, ?_, ?_⟩
      · simp only [left, Finset.mem_filter, List.mem_toFinset]
        exact ⟨hl a b hab, .single hab⟩
      · simp only [left, Finset.mem_filter]
        exact fun h => hr b h.2
    · intro c hc
      simp only [left, Finset.mem_filter] at hc ⊢
      exact ⟨hc.1, .head hab hc.2⟩
  exact Subrelation.wf (fun {b a} (hab : r a b) => hlt a b hab)
    (InvImage.wf (fun a => (left a).card) Nat.lt_wfRel.wf)

end SchemaModel
