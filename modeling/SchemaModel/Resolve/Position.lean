import SchemaModel.Document.Category

/-!
The positions of all schemas in a document. `Schema.children` lists the nodes inside a schema
with the steps to them, `Document.positions` every position that steps lead to.
-/

namespace SchemaModel

def indexed (step : Nat → Step) : Nat → List Node → List (Step × Node)
  | _, [] => []
  | index, node :: rest => (step index, node) :: indexed step (index + 1) rest

theorem mem_of_mem_indexed {step : Nat → Step} {nodes : List Node} {index : Nat}
    {child : Step × Node} (h : child ∈ indexed step index nodes) : child.2 ∈ nodes := by
  induction nodes generalizing index with
  | nil => simp [indexed] at h
  | cons node rest ih =>
    rcases List.mem_cons.1 h with h | h
    · simp [h]
    · exact List.mem_cons_of_mem _ (ih h)

namespace Schema

def additionalNodes (s : Schema) : List (Step × Node) :=
  match s.additional with
  | some (.values node) => [(.additional, node)]
  | _ => []

def itemNodes (s : Schema) : List (Step × Node) :=
  match s.items with
  | some node => [(.items, node)]
  | none => []

/-- The nodes one step inside a schema. -/
def children (s : Schema) : List (Step × Node) :=
  s.properties.map (fun e => (Step.property e.1, e.2)) ++ s.itemNodes ++ s.additionalNodes ++
    indexed .allOf 0 s.allOf ++ indexed .oneOf 0 s.oneOf ++ indexed .anyOf 0 s.anyOf

theorem sizeOf_lt_of_mem_children {s : Schema} {child : Step × Node} (h : child ∈ s.children) :
    sizeOf child.2 < sizeOf s := by
  simp only [children, List.mem_append, List.mem_map] at h
  rcases h with ((((⟨e, he, rfl⟩ | h) | h) | h) | h) | h
  · exact sizeOf_lt_of_mem_properties he
  · unfold itemNodes at h
    split at h
    · rename_i hi
      simp only [List.mem_singleton] at h
      exact h ▸ sizeOf_lt_of_items hi
    · cases h
  · unfold additionalNodes at h
    split at h
    · rename_i ha
      simp only [List.mem_singleton] at h
      exact h ▸ sizeOf_lt_of_additional ha
    · cases h
  · exact sizeOf_lt_of_mem_allOf (mem_of_mem_indexed h)
  · exact sizeOf_lt_of_mem_oneOf (mem_of_mem_indexed h)
  · exact sizeOf_lt_of_mem_anyOf (mem_of_mem_indexed h)

end Schema

/-- A position and all positions inside it. -/
def Node.positions (pointer : Pointer) (node : Node) : List Pointer :=
  match node with
  | .ref _ => [pointer]
  | .schema s =>
    pointer :: s.children.attach.flatMap fun ⟨child, _⟩ =>
      Node.positions (pointer.push child.1) child.2
termination_by sizeOf node
decreasing_by
  have := Schema.sizeOf_lt_of_mem_children ‹_›
  simp
  omega

def Document.positions (d : Document) : List Pointer :=
  d.components.flatMap fun e => e.2.positions (.ofComponent e.1)

end SchemaModel
