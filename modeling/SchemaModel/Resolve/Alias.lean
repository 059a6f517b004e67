import SchemaModel.Document.Category
import SchemaModel.Error

/-!
Following references. A component that is a bare `$ref`, or a union of one with `null`, is an
alias: its name stands for what the reference names. `Document.followAlias` goes along a chain
of aliases to the component that defines a schema.

A chain ends because every step but the last adds a component that was not on it; `unseen`
counts the components that are left.
-/

namespace SchemaModel

namespace Document

/-- The number of components that are not in `seen`. -/
def unseen (d : Document) (seen : List String) : Nat :=
  (d.names.filter fun name => !seen.contains name).length

theorem length_filter_lt_of_mem {α : Type} {p q : α → Bool} {l : List α} {x : α}
    (hqp : ∀ y, q y → p y) (hx : x ∈ l) (hp : p x) (hq : q x = false) :
    (l.filter q).length < (l.filter p).length := by
  induction l with
  | nil => cases hx
  | cons y rest ih =>
    have hle : (rest.filter q).length ≤ (rest.filter p).length := by
      rw [← List.countP_eq_length_filter, ← List.countP_eq_length_filter]
      exact List.countP_mono_left fun z _ hz => hqp z hz
    rcases List.mem_cons.1 hx with rfl | hx
    · rw [List.filter_cons_of_pos hp, List.filter_cons_of_neg (by simp [hq]), List.length_cons]
      omega
    · have := ih hx
      by_cases hqy : q y
      · rw [List.filter_cons_of_pos hqy, List.filter_cons_of_pos (hqp y hqy), List.length_cons,
          List.length_cons]
        omega
      · rw [List.filter_cons_of_neg hqy]
        by_cases hpy : p y
        · rw [List.filter_cons_of_pos hpy, List.length_cons]
          omega
        · rwa [List.filter_cons_of_neg hpy]

theorem unseen_append_le (d : Document) (seen more : List String) :
    d.unseen (seen ++ more) ≤ d.unseen seen := by
  unfold unseen
  rw [← List.countP_eq_length_filter, ← List.countP_eq_length_filter]
  refine List.countP_mono_left fun name _ h => ?_
  simp at h
  simpa using h.1

theorem unseen_append_lt (d : Document) {seen : List String} {name : String}
    (hmem : name ∈ d.names) (hnew : name ∉ seen) : d.unseen (seen ++ [name]) < d.unseen seen := by
  unfold unseen
  refine length_filter_lt_of_mem (fun y h => ?_) hmem ?_ ?_
  · simp at h
    simpa using h.1
  · simpa using hnew
  · simp

theorem mem_map_fst_of_lookup {α : Type} {entries : List (String × α)} {name : String} {value : α}
    (h : entries.lookup name = some value) : name ∈ entries.map Prod.fst := by
  induction entries with
  | nil => cases h
  | cons e rest ih =>
    obtain ⟨key, other⟩ := e
    rw [List.lookup_cons] at h
    split at h
    · rename_i heq
      simp [eq_of_beq heq]
    · exact List.mem_cons_of_mem _ (ih h)

theorem mem_names_of_find {d : Document} {name : String} {node : Node}
    (h : d.find? name = some node) : name ∈ d.names :=
  mem_map_fst_of_lookup h

/-- Goes from `current` along aliases; `chain` holds the names met so far, `current` last. -/
def followFrom (d : Document) (context : String) (chain : List String) (current : String) :
    Except ModelError String :=
  match _h : d.find? current with
  | none => .error (.unresolvable context (Reference.ofComponent current) .dangling)
  | some node =>
    match node.aliasTarget? with
    | none => .ok current
    | some path =>
      match Reference.component? path with
      | none => .error (.unresolvable current path .external)
      | some next =>
        if _hc : next ∈ chain then
          .error (.unresolvable context path (.cycle (chain ++ [next])))
        else followFrom d context (chain ++ [next]) next
termination_by d.unseen chain + if current ∈ d.names then 1 else 0
decreasing_by
  have hcur := mem_names_of_find _h
  rw [if_pos hcur]
  by_cases hn : next ∈ d.names
  · have := d.unseen_append_lt hn _hc
    rw [if_pos hn]
    omega
  · have := d.unseen_append_le chain [next]
    rw [if_neg hn]
    omega

/-- The component that a name stands for. Errors are reported against `context`. -/
def followAlias (d : Document) (context name : String) : Except ModelError String :=
  d.followFrom context [name] name

/-- The component that a reference leads to, aliases followed. -/
def resolveRef (d : Document) (context path : String) : Except ModelError String :=
  match Reference.component? path with
  | none => .error (.unresolvable context path .external)
  | some name => d.followAlias context name

/-- The schema that a component defines, unless it is a bare reference. -/
def definition? (d : Document) (name : String) : Option Schema :=
  match d.find? name with
  | some (.schema s) => some s
  | _ => none

theorem find?_of_definition {d : Document} {name : String} {s : Schema}
    (h : d.definition? name = some s) : d.find? name = some (.schema s) := by
  unfold definition? at h
  split at h
  · rename_i t hf
    cases h
    exact hf
  · cases h

theorem mem_names_of_definition {d : Document} {name : String} {s : Schema}
    (h : d.definition? name = some s) : name ∈ d.names := mem_names_of_find (find?_of_definition h)

def missing (name : String) : ModelError :=
  .unresolvable name (Reference.ofComponent name) .dangling

def definition (d : Document) (name : String) : Except ModelError Schema :=
  match d.definition? name with
  | some s => .ok s
  | none => .error (missing name)

end Document

end SchemaModel
