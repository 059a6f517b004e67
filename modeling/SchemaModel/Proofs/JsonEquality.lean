import Mathlib.Data.List.Nodup
import Mathlib.Data.List.Perm.Subperm
import SchemaModel.Json.Basic
import SchemaModel.Proofs.NameMap

/-!
Equality of JSON values. On values in which no object names a member twice it is an equivalence
(`Json.same_refl`, `Json.same_symm`, `Json.same_trans`): the order of members does not count,
neither does the sign of a zero.
-/

namespace SchemaModel

namespace Double

theorem same_iff {x y : Double} : x.same y ↔ (x.isZero ∧ y.isZero) ∨ x = y := by
  simp [same]

theorem same_trans {x y z : Double} (h : x.same y) (h' : y.same z) : x.same z := by
  rw [same_iff] at h h' ⊢
  rcases h with ⟨hx, hy⟩ | rfl
  · rcases h' with ⟨-, hz⟩ | rfl
    · exact .inl ⟨hx, hz⟩
    · exact .inl ⟨hx, hy⟩
  · exact h'

theorem same_symm {x y : Double} (h : x.same y) : y.same x := by
  rw [same_iff] at h ⊢
  rcases h with ⟨hx, hy⟩ | rfl
  · exact .inl ⟨hy, hx⟩
  · exact .inr rfl

end Double

namespace Number

theorem same_refl (n : Number) : n.same n := by
  cases n with
  | int value => exact beq_self_eq_true value
  | double value => exact Double.same_iff.2 (.inr rfl)

theorem same_symm {m n : Number} (h : m.same n) : n.same m := by
  cases m with
  | int a =>
    cases n with
    | int b => exact beq_iff_eq.2 (beq_iff_eq.1 h).symm
    | double b => cases h
  | double a =>
    cases n with
    | int b => cases h
    | double b => exact Double.same_symm h

theorem same_trans {m n k : Number} (h : m.same n) (h' : n.same k) : m.same k := by
  cases m with
  | int a =>
    cases n with
    | int b => exact (beq_iff_eq.1 h) ▸ h'
    | double b => cases h
  | double a =>
    cases n with
    | int b => cases h
    | double b =>
      cases k with
      | int c => cases h'
      | double c => exact Double.same_trans h h'

end Number

namespace Json

theorem sameItems_iff {a b : List Json} :
    sameItems a b ↔ List.Forall₂ (fun x y => x.same y) a b := by
  induction a generalizing b with
  | nil => cases b <;> simp [sameItems]
  | cons x rest ih => cases b <;> simp [sameItems, ih]

theorem sameFields_iff {fields others : List (String × Json)} : sameFields fields others ↔
    ∀ e ∈ fields, ∃ v, others.lookup e.1 = some v ∧ e.2.same v := by
  induction fields with
  | nil => simp [sameFields]
  | cons e rest ih =>
    obtain ⟨key, a⟩ := e
    rw [sameFields, Bool.and_eq_true, ih, List.forall_mem_cons]
    refine and_congr_left fun _ => ?_
    cases others.lookup key with
    | none => simp
    | some b => simp

mutual

/-- Equality is transitive on all values: what is found under a name in the second object is one
of its members, so the third has an equal one. -/
theorem same_trans {u v w : Json} (huv : u.same v) (hvw : v.same w) : u.same w := by
  match u, v, w with
  | .null, .null, .null => rfl
  | .bool a, .bool b, .bool c =>
    exact beq_iff_eq.2 ((beq_iff_eq.1 huv).trans (beq_iff_eq.1 hvw))
  | .num a, .num b, .num c => exact Number.same_trans huv hvw
  | .str a, .str b, .str c =>
    exact beq_iff_eq.2 ((beq_iff_eq.1 huv).trans (beq_iff_eq.1 hvw))
  | .arr a, .arr b, .arr c => exact sameItems_trans huv hvw
  | .obj a, .obj b, .obj c =>
    rw [same, Bool.and_eq_true, beq_iff_eq] at huv hvw ⊢
    exact ⟨huv.1.trans hvw.1, sameFields_trans huv.2 hvw.2⟩

theorem sameItems_trans {a b c : List Json} (hab : sameItems a b) (hbc : sameItems b c) :
    sameItems a c := by
  match a, b, c with
  | [], [], [] => rfl
  | x :: a, y :: b, z :: c =>
    rw [sameItems, Bool.and_eq_true] at hab hbc ⊢
    exact ⟨same_trans hab.1 hbc.1, sameItems_trans hab.2 hbc.2⟩

theorem sameFields_trans {a b c : List (String × Json)} (hab : sameFields a b)
    (hbc : sameFields b c) : sameFields a c := by
  match a with
  | [] => rfl
  | (key, u) :: a =>
    rw [sameFields_iff, List.forall_mem_cons] at hab
    obtain ⟨⟨v, hv, huv⟩, hrest⟩ := hab
    obtain ⟨w, hw, hvw⟩ := sameFields_iff.1 hbc (key, v) (mem_of_lookup hv)
    rw [sameFields, hw, Bool.and_eq_true]
    exact ⟨same_trans huv hvw, sameFields_trans (sameFields_iff.2 hrest) hbc⟩

end

/-- No object in the value names a member twice. -/
inductive Proper : Json → Prop where
  | null : Proper .null
  | bool (value : Bool) : Proper (.bool value)
  | num (value : Number) : Proper (.num value)
  | str (value : String) : Proper (.str value)
  | arr {items : List Json} (items_proper : ∀ v ∈ items, Proper v) : Proper (.arr items)
  | obj {fields : List (String × Json)} (distinct : (fields.map Prod.fst).Nodup)
      (fields_proper : ∀ e ∈ fields, Proper e.2) : Proper (.obj fields)

theorem same_refl {v : Json} (h : v.Proper) : v.same v := by
  induction h with
  | null => rfl
  | bool value => exact beq_self_eq_true value
  | num value => exact value.same_refl
  | str value => exact beq_self_eq_true value
  | arr _ ih => exact sameItems_iff.2 (List.forall₂_same.2 ih)
  | obj distinct _ ih =>
    rw [same, Bool.and_eq_true]
    refine ⟨beq_self_eq_true _, sameFields_iff.2 fun e he => ?_⟩
    exact ⟨e.2, (lookup_eq_some_iff distinct).2 he, ih e he⟩

/-- If as many members as an object has are all found in another one, they are all of its
members. -/
theorem mem_names_of_sameFields {fields others : List (String × Json)}
    (hn : (fields.map Prod.fst).Nodup) (hl : fields.length = others.length)
    (h : sameFields fields others) : ∀ e ∈ others, e.1 ∈ fields.map Prod.fst := by
  have hsub : fields.map Prod.fst ⊆ others.map Prod.fst := by
    intro key hkey
    obtain ⟨e, he, rfl⟩ := List.mem_map.1 hkey
    obtain ⟨v, hv, -⟩ := sameFields_iff.1 h e he
    exact lookup_isSome_iff.1 (Option.isSome_of_eq_some hv)
  have hperm := (hn.subperm hsub).perm_of_length_le (by simp [hl])
  intro e he
  exact hperm.mem_iff.2 (List.mem_map_of_mem he)

theorem same_symm {v w : Json} (hv : v.Proper) (hw : w.Proper) (h : v.same w) : w.same v := by
  induction hv generalizing w with
  | null =>
    cases w with
    | null => rfl
    | _ => cases h
  | bool a =>
    cases w with
    | bool b => exact beq_iff_eq.2 (beq_iff_eq.1 h).symm
    | _ => cases h
  | num a =>
    cases w with
    | num b => exact Number.same_symm h
    | _ => cases h
  | str a =>
    cases w with
    | str b => exact beq_iff_eq.2 (beq_iff_eq.1 h).symm
    | _ => cases h
  | @arr items _ ih =>
    cases hw with
    | @arr others hothers =>
      have hall : List.Forall₂ (fun x y => x.same y) items others := sameItems_iff.1 h
      refine sameItems_iff.2 (List.forall₂_iff_get.2 ⟨hall.length_eq.symm, fun i hi hj => ?_⟩)
      exact ih _ (List.get_mem _ _) (hothers _ (List.get_mem _ _))
        ((List.forall₂_iff_get.1 hall).2 i hj hi)
    | _ => cases h
  | @obj fields distinct _ ih =>
    cases hw with
    | @obj others odistinct hothers =>
      rw [same, Bool.and_eq_true, beq_iff_eq] at h ⊢
      obtain ⟨hl, hfields⟩ := h
      refine ⟨hl.symm, sameFields_iff.2 fun e he => ?_⟩
      obtain ⟨own, hown, hkey⟩ := List.mem_map.1
        (mem_names_of_sameFields distinct hl hfields e he)
      obtain ⟨v, hv, hsame⟩ := sameFields_iff.1 hfields own hown
      have hev : v = e.2 := by
        rw [hkey, (lookup_eq_some_iff odistinct).2 he] at hv
        exact (Option.some.inj hv).symm
      refine ⟨own.2, ?_, ih own hown (hothers e he) (hev ▸ hsame)⟩
      rw [← hkey]
      exact (lookup_eq_some_iff distinct).2 hown
    | _ => cases h

end Json

end SchemaModel
