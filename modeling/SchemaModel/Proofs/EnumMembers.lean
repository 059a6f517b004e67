import Mathlib.Data.List.Induction
import SchemaModel.Proofs.Computed
import SchemaModel.Proofs.Libraries.Words
import SchemaModel.Proofs.JsonEquality
import SchemaModel.Resolve.Outline

/-!
The members of an enum stand for its values one to one (`Schema.enumDescriptor_enumerates`). They
are the distinct values other than `null`, in the order in which they first occur, and their
constants are distinct identifiers.

A member is added to the end of those before it, so the inductions here go from the end of the
list of values.
-/

namespace SchemaModel

namespace Json

/-- The values other than `null` that are equal to none before them, in order. -/
def firsts (values : List Json) : List Json :=
  (values.zipIdx.filter fun e => !(e.1.isNull || (values.take e.2).any (·.same e.1))).map Prod.fst

theorem firsts_concat (values : List Json) (v : Json) :
    firsts (values ++ [v]) =
      if v.isNull || values.any (·.same v) then firsts values else firsts values ++ [v] := by
  have hbefore : values.zipIdx.filter (fun e =>
        !(e.1.isNull || ((values ++ [v]).take e.2).any (·.same e.1))) =
      values.zipIdx.filter fun e => !(e.1.isNull || (values.take e.2).any (·.same e.1)) := by
    refine List.filter_congr fun e he => ?_
    rw [List.take_append_of_le_length (Nat.le_of_lt (List.snd_lt_of_mem_zipIdx he))]
  rw [firsts, List.zipIdx_append, List.filter_append, hbefore, List.map_append]
  simp only [List.zipIdx_singleton, List.filter_singleton, Nat.zero_add, List.take_left]
  cases v.isNull || values.any (·.same v) with
  | true => exact List.append_nil _
  | false => rfl

theorem mem_of_mem_firsts {values : List Json} {v : Json} (h : v ∈ firsts values) :
    v ∈ values ∧ ¬ v.isNull := by
  obtain ⟨e, he, rfl⟩ := List.mem_map.1 h
  obtain ⟨hmem, hfirst⟩ := List.mem_filter.1 he
  refine ⟨List.fst_mem_of_mem_zipIdx hmem, fun hnull => ?_⟩
  rw [hnull] at hfirst
  cases hfirst

theorem isNull_of_same {v w : Json} (h : v.same w) : v.isNull = w.isNull := by
  cases v with
  | null =>
    cases w with
    | null => rfl
    | _ => cases h
  | _ =>
    cases w with
    | null => cases h
    | _ => rfl

/-- A value is equal to one of the first ones if it is equal to any that is not `null`. -/
theorem exists_firsts_iff {values : List Json} {w : Json} :
    (∃ v ∈ firsts values, v.same w) ↔ ∃ v ∈ values, ¬ v.isNull ∧ v.same w := by
  constructor
  · rintro ⟨v, hv, hsame⟩
    exact ⟨v, (mem_of_mem_firsts hv).1, (mem_of_mem_firsts hv).2, hsame⟩
  · rintro ⟨v, hv, hnull, hsame⟩
    induction values using List.reverseRecOn generalizing v with
    | nil => cases hv
    | append_singleton values last ih =>
      rw [firsts_concat]
      rcases List.mem_append.1 hv with hv | hv
      · obtain ⟨u, hu, huw⟩ := ih v hv hnull hsame
        refine ⟨u, ?_, huw⟩
        split
        · exact hu
        · exact List.mem_append_left _ hu
      · obtain rfl := List.mem_singleton.1 hv
        split
        · rename_i hold
          -- an earlier value stands for this one
          have hany := (Bool.or_eq_true_iff.1 hold).resolve_left hnull
          obtain ⟨u, hu, huv⟩ := List.any_eq_true.1 hany
          exact ih u hu (isNull_of_same huv ▸ hnull) (same_trans huv hsame)
        · exact ⟨v, List.mem_append_right _ List.mem_cons_self, hsame⟩

/-- None of the first values is equal to one before it. -/
theorem firsts_apart (values : List Json) : (firsts values).Pairwise fun v w => ¬ v.same w := by
  induction values using List.reverseRecOn with
  | nil => exact List.Pairwise.nil
  | append_singleton values last ih =>
    rw [firsts_concat]
    split
    · exact ih
    · rename_i hnew
      refine List.pairwise_append.2 ⟨ih, List.pairwise_singleton _ _, fun v hv w hw hsame => ?_⟩
      obtain rfl := List.mem_singleton.1 hw
      refine hnew (Bool.or_eq_true_iff.2 (.inr (List.any_eq_true.2 ⟨v, ?_, hsame⟩)))
      exact (mem_of_mem_firsts hv).1

end Json

namespace Schema

variable [Libraries]

/-- The members list the values read so far, under distinct constants. -/
structure Lists (values : List Json) (members : List EnumMember) : Prop where
  listed : members.map EnumMember.value = Json.firsts values
  distinct : (members.map EnumMember.constant).Nodup
  made : ∀ m ∈ members, ∃ text used, m.constant = Naming.fresh (Naming.enumConstant text) used

/-- A value is passed over if it is `null` or equal to one already read. -/
theorem Lists.passes_iff {values : List Json} {members : List EnumMember}
    (h : Lists values members) (v : Json) :
    (v.isNull || members.any (fun m => m.value.same v)) =
      (v.isNull || values.any (·.same v)) := by
  have hany : members.any (fun m => m.value.same v) = (Json.firsts values).any (·.same v) := by
    rw [← h.listed, List.any_map]
    rfl
  rw [hany]
  cases hnull : v.isNull with
  | true => rfl
  | false =>
    rw [Bool.false_or, Bool.false_or, Bool.eq_iff_iff, List.any_eq_true, List.any_eq_true,
      Json.exists_firsts_iff]
    constructor
    · rintro ⟨u, hu, -, hsame⟩
      exact ⟨u, hu, hsame⟩
    · rintro ⟨u, hu, hsame⟩
      refine ⟨u, hu, ?_, hsame⟩
      rw [Json.isNull_of_same hsame, hnull]
      exact Bool.false_ne_true

theorem Lists.add {values : List Json} {members : List EnumMember}
    (h : Lists values members) {v : Json} (hv : ¬ (v.isNull || values.any (·.same v))) :
    Lists (values ++ [v]) (members ++ [⟨v, Naming.fresh (Naming.enumConstant (valueText v))
      (members.map EnumMember.constant)⟩]) := by
  constructor
  · rw [List.map_append, h.listed, Json.firsts_concat, if_neg hv]
    rfl
  · rw [List.map_append, List.nodup_append]
    refine ⟨h.distinct, List.nodup_singleton _, fun name hname other hother => ?_⟩
    rw [List.mem_singleton.1 hother]
    rintro rfl
    exact Naming.fresh_notMem _ _ hname
  · rw [List.forall_mem_append]
    exact ⟨h.made, List.forall_mem_singleton.2 ⟨_, _, rfl⟩⟩

theorem Lists.run {values rest : List Json} {members : List EnumMember}
    (h : Lists values members) : Lists (values ++ rest) (enumMembers members rest) := by
  induction rest generalizing values members with
  | nil => rwa [List.append_nil]
  | cons v rest ih =>
    rw [enumMembers, h.passes_iff, List.append_cons]
    split
    · rename_i hold
      refine ih ⟨?_, h.distinct, h.made⟩
      rw [h.listed, Json.firsts_concat, if_pos hold]
    · rename_i hnew
      exact ih (h.add hnew)

theorem enumDescriptor_lists (s : Schema) : Lists s.enum s.enumDescriptor.members := by
  have hnone : Lists [] [] := ⟨rfl, List.nodup_nil, List.forall_mem_nil _⟩
  exact hnone.run

end Schema

/-- The members of an enum stand for values one to one. -/
structure EnumDescriptor.Enumerates (e : EnumDescriptor) (values : List Json) : Prop where
  /-- They are the distinct values other than `null`, in the order in which they first occur. -/
  listed : e.members.map EnumMember.value = Json.firsts values
  distinct : (e.members.map EnumMember.constant).Nodup
  identifiers : ∀ m ∈ e.members, Naming.IsIdentifier m.constant
  /-- A value has a member if it is equal to one of the values other than `null`. -/
  member_iff : ∀ v, (e.member? v).isSome ↔ ∃ u ∈ values, ¬ u.isNull ∧ u.same v
  member_of_mem : ∀ v ∈ values, ¬ v.isNull → v.Proper → (e.member? v).isSome
  /-- A constant belongs to one value. -/
  determined : ∀ v w m n, e.member? v = some m → e.member? w = some n →
    m.constant = n.constant → m.value = n.value
  apart : (∀ v ∈ values, v.Proper) →
    e.members.Pairwise fun m n => ¬ m.value.same n.value ∧ ¬ n.value.same m.value

theorem Schema.Lists.enumerates [Libraries] [Naming.LawfulConstant] {e : EnumDescriptor}
    {values : List Json} (h : Lists values e.members) : e.Enumerates values := by
  have hmember : ∀ v, (e.member? v).isSome ↔ ∃ u ∈ values, ¬ u.isNull ∧ u.same v := by
    intro v
    rw [EnumDescriptor.member?, List.find?_isSome, ← Json.exists_firsts_iff, ← h.listed]
    simp only [List.mem_map, exists_exists_and_eq_and]
  refine ⟨h.listed, h.distinct, ?_, hmember, ?_, ?_, ?_⟩
  · intro m hm
    obtain ⟨text, used, hmade⟩ := h.made m hm
    rw [hmade]
    exact Naming.fresh_isIdentifier (Naming.enumConstant_isIdentifier text) used
  · intro v hv hnull hproper
    exact (hmember v).2 ⟨v, hv, hnull, Json.same_refl hproper⟩
  · intro v w m n hm hn heq
    have hmn := List.inj_on_of_nodup_map h.distinct (List.mem_of_find?_eq_some hm)
      (List.mem_of_find?_eq_some hn) heq
    rw [hmn]
  · intro hproper
    have hvalue : ∀ m ∈ e.members, m.value.Proper := by
      intro m hm
      have hfirst : m.value ∈ Json.firsts values := h.listed ▸ List.mem_map_of_mem hm
      exact hproper _ (Json.mem_of_mem_firsts hfirst).1
    have hpairs := List.pairwise_map.1 (h.listed ▸ Json.firsts_apart values)
    refine hpairs.imp_of_mem fun {m n} hm hn hne => ⟨hne, fun hsame => hne ?_⟩
    exact Json.same_symm (hvalue n hn) (hvalue m hm) hsame

/-- Enum values and constants correspond one to one. -/
theorem Schema.enumDescriptor_enumerates [Libraries] [Naming.LawfulConstant] (s : Schema) :
    s.enumDescriptor.Enumerates s.enum := s.enumDescriptor_lists.enumerates

/-- Two values with one constant, a number, and a value that comes twice. -/
def crowdedEnum : Schema :=
  { Schema.empty with enum := [.str "a-b", .null, .str "A_B", .num (.int 1), .str "a-b"] }

theorem enumDescriptor_enumerates_crowded_enum :
    crowdedEnum.enumDescriptor.members =
      [⟨.str "a-b", "A_B"⟩, ⟨.str "A_B", "A_B2"⟩, ⟨.num (.int 1), "_1"⟩] ∧
    crowdedEnum.enumDescriptor.Enumerates crowdedEnum.enum :=
  ⟨by cbv, Schema.enumDescriptor_enumerates crowdedEnum⟩

end SchemaModel
