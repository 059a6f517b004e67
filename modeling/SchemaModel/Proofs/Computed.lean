import Mathlib
import SchemaModel.Libraries.Standard

/-!
What is read off a run that was computed: a value seen at the end of several runs, one after the
other, is seen at the end of each of them.

Computing goes by the equations of every function on the way, those of the standard library among
them. Most of these are stated in one part of Mathlib or another, and a module that computes without
this part states them once more. So the whole of it is imported, here and in no other module, for
the modules that compute a run.
-/

namespace SchemaModel

theorem toOption_eq_some_iff {ε α : Type} {x : Except ε α} {a : α} :
    x.toOption = some a ↔ x = .ok a := by
  cases x with
  | error e => simp [Except.toOption]
  | ok b => simp [Except.toOption]

theorem exists_eq_ok_of_isSome {ε α : Type} {x : Except ε α} (h : x.toOption.isSome) :
    ∃ a, x = .ok a := by
  obtain ⟨a, ha⟩ := Option.isSome_iff_exists.1 h
  exact ⟨a, toOption_eq_some_iff.1 ha⟩

theorem toOption_bind_eq_some_iff {ε α β : Type} {x : Except ε α} {f : α → Option β} {b : β} :
    x.toOption.bind f = some b ↔ ∃ a, x = .ok a ∧ f a = some b := by
  simp only [Option.bind_eq_some_iff, toOption_eq_some_iff]

theorem toOption_map_eq_some_iff {ε α β : Type} {x : Except ε α} {f : α → β} {b : β} :
    x.toOption.map f = some b ↔ ∃ a, x = .ok a ∧ f a = b := by
  simp only [Option.map_eq_some_iff, toOption_eq_some_iff]

end SchemaModel
