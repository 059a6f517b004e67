import SchemaModel.Proofs.NameMap
import SchemaModel.Proofs.Resolve.Place
import SchemaModel.Resolve.Position

/-!
Every position to which the walk leads is one of the document's positions. There are finitely
many of them, which is why resolving inline schemas one after another comes to an end.
-/

namespace SchemaModel

theorem mem_indexed {step : Nat → Step} {nodes : List Node} {start index : Nat} {node : Node}
    (h : nodes[index]? = some node) : (step (start + index), node) ∈ indexed step start nodes := by
  induction nodes generalizing start index with
  | nil => cases h
  | cons first rest ih =>
    cases index with
    | zero =>
      cases h
      exact List.mem_cons_self
    | succ index =>
      have hm := @ih (start + 1) index (by simpa using h)
      rw [Nat.add_right_comm] at hm
      exact List.mem_cons_of_mem _ hm

theorem positions_subset_of_mem_children {s : Schema} {child : Step × Node}
    (h : child ∈ s.children) (pointer : Pointer) :
    child.2.positions (pointer.push child.1) ⊆ (Node.schema s).positions pointer := by
  intro p hp
  rw [Node.positions]
  exact List.mem_cons_of_mem _ (List.mem_flatMap.2 ⟨⟨child, h⟩, List.mem_attach _ _, hp⟩)

theorem mem_positions_self (pointer : Pointer) (node : Node) :
    pointer ∈ node.positions pointer := by
  cases node with
  | ref path => simp [Node.positions]
  | schema s =>
    rw [Node.positions]
    exact List.mem_cons_self

def Place.node : Place → Node
  | owner _ s => .schema s
  | value _ node => node

namespace Scope

variable {scope : Scope}

theorem node_enter (scope : Scope) (pointer : Pointer) (base : String) (node : Node) :
    (scope.enter pointer base node).node = node := by
  cases node with
  | ref path => rfl
  | schema s =>
    simp only [enter]
    split <;> rfl

theorem innerOwner_eq_some {name : String} {node : Option Node} {place : Place}
    (h : innerOwner name node = some place) : node = some place.node := by
  unfold innerOwner at h
  split at h
  · cases h
    rfl
  · cases h

theorem entered_node {pointer : Pointer} {base : String} {node : Option Node} {place : Place}
    (h : node.map (scope.enter pointer base) = some place) : node = some place.node := by
  obtain ⟨node, hn, rfl⟩ := Option.map_eq_some_iff.1 h
  rwa [node_enter]

theorem mem_children_of_items {s : Schema} {node : Node} (h : s.items = some node) :
    (Step.items, node) ∈ s.children := by
  simp [Schema.children, Schema.itemNodes, h]

theorem mem_children_of_additional {s : Schema} {node : Node}
    (h : s.additional = some (.values node)) : (Step.additional, node) ∈ s.children := by
  simp [Schema.children, Schema.additionalNodes, h]

theorem mem_children_of_property {s : Schema} {key : String} {node : Node}
    (h : s.property? key = some node) : (Step.property key, node) ∈ s.children := by
  have hm : (key, node) ∈ s.properties := List.mem_reverse.1 (mem_of_lookup h)
  simp only [Schema.children, List.mem_append, List.mem_map]
  exact .inl (.inl (.inl (.inl (.inl ⟨_, hm, rfl⟩))))

theorem mem_children_of_index {s : Schema} {index : Nat} {node : Node} :
    (s.allOf[index]? = some node → (Step.allOf index, node) ∈ s.children) ∧
    (s.oneOf[index]? = some node → (Step.oneOf index, node) ∈ s.children) ∧
    (s.anyOf[index]? = some node → (Step.anyOf index, node) ∈ s.children) := by
  have hindex : ∀ (step : Nat → Step) (nodes : List Node), nodes[index]? = some node →
      (step index, node) ∈ indexed step 0 nodes := by
    intro step nodes h
    simpa using @mem_indexed step nodes 0 index node h
  simp only [Schema.children, List.mem_append]
  exact ⟨fun h => .inl (.inl (.inr (hindex _ _ h))), fun h => .inl (.inr (hindex _ _ h)),
    fun h => .inr (hindex _ _ h)⟩

variable [Libraries]

theorem childPlace_mem_children {pointer : Pointer} {place inner : Place} {step : Step}
    (h : scope.childPlace pointer place step = some inner) :
    ∃ s, place.node = .schema s ∧ (step, inner.node) ∈ s.children := by
  unfold childPlace at h
  split at h
  · exact ⟨_, rfl, mem_children_of_property (entered_node h)⟩
  · exact ⟨_, rfl, mem_children_of_items (entered_node h)⟩
  · split at h
    · rename_i hs
      cases h
      exact ⟨_, rfl, node_enter scope .. ▸ mem_children_of_additional hs⟩
    · cases h
  · exact ⟨_, rfl, mem_children_of_index.1 (innerOwner_eq_some h)⟩
  · exact ⟨_, rfl, mem_children_of_index.2.1 (innerOwner_eq_some h)⟩
  · exact ⟨_, rfl, mem_children_of_index.2.2 (innerOwner_eq_some h)⟩
  · exact ⟨_, rfl, mem_children_of_items (entered_node h)⟩
  · split at h
    · rename_i hs
      cases h
      exact ⟨_, rfl, node_enter scope .. ▸ mem_children_of_additional hs⟩
    · cases h
  · exact ⟨_, rfl, mem_children_of_index.2.1 (entered_node h)⟩
  · exact ⟨_, rfl, mem_children_of_index.2.2 (entered_node h)⟩
  · cases h

theorem placeFrom_mem_positions {steps : List Step} {pointer : Pointer} {place inner : Place}
    (h : scope.placeFrom pointer place steps = some inner) :
    ⟨pointer.component, pointer.steps ++ steps⟩ ∈ place.node.positions pointer := by
  induction steps generalizing pointer place with
  | nil =>
    rw [List.append_nil]
    exact mem_positions_self pointer place.node
  | cons step rest ih =>
    obtain ⟨child, hc, h⟩ := Option.bind_eq_some_iff.1 h
    obtain ⟨s, hs, hm⟩ := childPlace_mem_children hc
    have hp := ih h
    rw [Pointer.push, List.append_assoc] at hp
    rw [hs]
    exact positions_subset_of_mem_children hm pointer hp

/-- The walk leads to positions of the document only. -/
theorem mem_positions_of_placeAt {pointer : Pointer} {place : Place}
    (h : scope.placeAt pointer = some place) : pointer ∈ scope.document.positions := by
  obtain ⟨s, hs, h⟩ := Option.bind_eq_some_iff.1 h
  have hm : (pointer.component, Node.schema s) ∈ scope.document.components :=
    (lookup_eq_some_iff scope.document.distinct).1 (Document.find?_of_definition hs)
  exact List.mem_flatMap.2 ⟨_, hm, placeFrom_mem_positions h⟩

end Scope

end SchemaModel
