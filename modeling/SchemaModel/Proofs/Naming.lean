import Mathlib.Data.List.Nodup
import Mathlib.Data.List.Perm.Subperm
import SchemaModel.Naming

/-!
A fresh name is not a used one (`fresh_notMem`): of the numbered candidates there is one more than
there are used names.
-/

namespace SchemaModel.Naming

theorem toDigits_injective {m n : Nat} (h : Nat.toDigits 10 m = Nat.toDigits 10 n) : m = n := by
  rw [← Nat.ofDigitChars_ten_toDigits (n := m), h, Nat.ofDigitChars_ten_toDigits]

theorem numbered_injective {base : String} {m n : Nat} (h : numbered base m = numbered base n) :
    m = n := by
  have hl := congrArg String.toList h
  simp only [numbered, String.toList_append, List.append_cancel_left_eq] at hl
  change (Nat.repr m).toList = (Nat.repr n).toList at hl
  rw [Nat.toList_repr, Nat.toList_repr] at hl
  exact toDigits_injective hl

theorem candidates_nodup (base : String) (count : Nat) : (candidates base count).Nodup := by
  refine List.Nodup.map ?_ List.nodup_range
  intro m n h
  have hn := numbered_injective h
  omega

/-- Not all of the candidates are used. -/
theorem exists_unused (base : String) (used : List String) :
    ∃ name ∈ candidates base (used.length + 1), name ∉ used := by
  by_contra hall
  have hsub : candidates base (used.length + 1) ⊆ used := by
    intro name hm
    by_contra hn
    exact hall ⟨name, hm, hn⟩
  have hle := ((candidates_nodup base _).subperm hsub).length_le
  simp only [candidates, List.length_map, List.length_range] at hle
  omega

theorem fresh_notMem (base : String) (used : List String) : fresh base used ∉ used := by
  unfold fresh
  split
  · obtain ⟨name, hm, hn⟩ := exists_unused base used
    have hsome : ((candidates base (used.length + 1)).find? fun name =>
        !used.contains name).isSome := by
      rw [List.find?_isSome]
      exact ⟨name, hm, by simpa using hn⟩
    obtain ⟨found, hf⟩ := Option.isSome_iff_exists.1 hsome
    rw [hf, Option.getD_some]
    have hc := List.find?_some hf
    simpa using hc
  · rename_i hc
    simpa using hc

end SchemaModel.Naming
