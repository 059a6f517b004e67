import SchemaModel.Proofs.Resolve.Names

/-!
Positions by their texts. What is kept for a position, be it a schema that was resolved or merged
there or the name that was given to it, is found by the text of the position as well as by the
position itself, and whether a name has to wait for another one can be seen from the texts
(`Pointer.text_identifies`).
-/

namespace SchemaModel

/-- Entries with the texts of their positions. -/
def byText {α : Type} (entries : List (Pointer × α)) : List (String × α) :=
  entries.map fun e => (e.1.text, e.2)

theorem lookup_byText {α : Type} (entries : List (Pointer × α)) (p : Pointer) :
    (byText entries).lookup p.text = entries.lookup p := by
  induction entries with
  | nil => rfl
  | cons e rest ih =>
    obtain ⟨q, a⟩ := e
    change ((q.text, a) :: byText rest).lookup p.text = _
    rw [List.lookup_cons, List.lookup_cons, ih]
    by_cases h : p = q
    · rw [h, beq_self_eq_true, beq_self_eq_true]
    · have htext : ¬p.text = q.text := fun heq => h (Pointer.text_injective heq)
      rw [beq_eq_false_iff_ne.2 h, beq_eq_false_iff_ne.2 htext]

namespace Pointer

/-- The text of a position stands for it: no other position has it, and it goes on behind the text
of another position with a slash exactly if the position lies inside that one. So what is resolved,
merged or renamed at a position is found by its text, and a position whose name collides waits
exactly if its text goes on behind that of another such position. -/
theorem text_identifies :
    Function.Injective text ∧
    (∀ outer inner : Pointer, Continues outer.text inner.text ↔ outer.encloses inner) ∧
    (∀ (r : Resolver) (p : Pointer), (byText r.resolved).lookup p.text = r.find? p) ∧
    (∀ (m : Memory) (p : Pointer), (byText m.merged).lookup p.text = m.find? p) ∧
    (∀ (scope : Scope) (p : Pointer),
      (byText scope.renames).lookup p.text = scope.renames.lookup p) ∧
    ∀ (r : Resolver) (p : Pointer), p ∈ r.renamed ↔
      (∃ name, (name, p) ∈ r.collisions) ∧
        ∀ e ∈ r.collisions, ¬Continues e.2.text p.text := by
  have hinside : ∀ outer inner : Pointer,
      Continues outer.text inner.text ↔ outer.encloses inner := fun _ _ => continues_text_iff
  refine ⟨fun _ _ => text_injective, hinside, fun r => lookup_byText r.resolved,
    fun m => lookup_byText m.merged, fun scope => lookup_byText scope.renames, ?_⟩
  intro r p
  simp only [hinside]
  exact Resolver.mem_renamed_iff

end Pointer

end SchemaModel
