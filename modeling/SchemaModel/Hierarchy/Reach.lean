import SchemaModel.NameMap

/-!
Names that are reached from a name along a relation in one step or more.
-/

namespace SchemaModel

/-- The names met from `frontier` on, each of `todo` at most once. -/
def explore (edges : String → List String) (todo frontier seen : List String) : List String :=
  match frontier with
  | [] => seen
  | name :: rest =>
    if _h : name ∈ todo then explore edges (todo.erase name) (edges name ++ rest) (seen ++ [name])
    else explore edges todo rest seen
termination_by (todo.length, frontier.length)
decreasing_by
  · refine Prod.Lex.left _ _ ?_
    have := List.length_erase_of_mem _h
    have := List.length_pos_of_mem _h
    omega
  · exact Prod.Lex.right _ (by simp)

/-- The names reached from `start`, among the given nodes. -/
def reach (nodes : List String) (edges : String → List String) (start : String) : List String :=
  explore edges nodes (edges start) []

end SchemaModel
