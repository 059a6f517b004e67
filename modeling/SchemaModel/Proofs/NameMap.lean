import Mathlib.Data.List.Nodup
import SchemaModel.NameMap

/-!
A name map is determined by its lookups. `NameMap.ext` says so, and `ofList_eq_of_mem_iff`
that the order of the entries from which a map is made does not matter if no name has two values.
-/

namespace SchemaModel

variable {α : Type}

/-- No name occurs with two values. -/
def SingleValued (entries : List (String × α)) : Prop :=
  ∀ name a b, (name, a) ∈ entries → (name, b) ∈ entries → a = b

theorem singleValued_of_nodup {entries : List (String × α)}
    (hn : (entries.map Prod.fst).Nodup) : SingleValued entries := by
  intro name a b ha hb
  have he := List.inj_on_of_nodup_map hn ha hb rfl
  cases he
  rfl

theorem mem_of_lookup {κ : Type} [BEq κ] [LawfulBEq κ] {l : List (κ × α)} {key : κ} {a : α}
    (h : l.lookup key = some a) : (key, a) ∈ l := by
  obtain ⟨before, after, rfl, -⟩ := List.lookup_eq_some_iff.1 h
  exact List.mem_append_right _ List.mem_cons_self

theorem mem_map_key_iff {key : α → String} {l : List α} {k : String} :
    k ∈ l.map key ↔ (l.find? fun b => key b == k).isSome := by
  rw [List.find?_isSome, List.mem_map]
  simp only [beq_iff_eq]

/-- A lookup finds exactly the entries of such a list. -/
theorem SingleValued.lookup_eq_some_iff {entries : List (String × α)} (hs : SingleValued entries)
    {name : String} {value : α} :
    entries.lookup name = some value ↔ (name, value) ∈ entries := by
  induction entries with
  | nil => simp
  | cons e rest ih =>
    obtain ⟨key, other⟩ := e
    have hrest : SingleValued rest := fun name a b ha hb =>
      hs name a b (List.mem_cons_of_mem _ ha) (List.mem_cons_of_mem _ hb)
    rw [NameMap.lookup_cons_ite, List.mem_cons, Prod.mk.injEq]
    by_cases he : name = key
    · subst he
      rw [if_pos rfl, Option.some.injEq]
      constructor
      · intro h
        exact .inl ⟨rfl, h.symm⟩
      · rintro (⟨-, h⟩ | h)
        · exact h.symm
        · exact hs name _ _ List.mem_cons_self (List.mem_cons_of_mem _ h)
    · simp [he, ih hrest]

theorem lookup_eq_some_iff {entries : List (String × α)} (hn : (entries.map Prod.fst).Nodup)
    {name : String} {value : α} :
    entries.lookup name = some value ↔ (name, value) ∈ entries :=
  (singleValued_of_nodup hn).lookup_eq_some_iff

theorem lookup_eq_of_perm {a b : List (String × α)} (hn : (a.map Prod.fst).Nodup)
    (h : a.Perm b) (name : String) : a.lookup name = b.lookup name := by
  apply Option.ext
  intro value
  have hb : (b.map Prod.fst).Nodup := (h.map Prod.fst).nodup_iff.1 hn
  rw [lookup_eq_some_iff hn, lookup_eq_some_iff hb, h.mem_iff]

theorem lookup_isSome_iff {entries : List (String × α)} {name : String} :
    (entries.lookup name).isSome ↔ name ∈ entries.map Prod.fst := by
  induction entries with
  | nil => simp
  | cons e rest ih =>
    obtain ⟨key, value⟩ := e
    rw [NameMap.lookup_cons_ite]
    by_cases he : name = key
    · simp [he]
    · simp [he, ih]

theorem NamesSorted.nodup {entries : List (String × α)} (h : NamesSorted entries) :
    (entries.map Prod.fst).Nodup := by
  refine List.pairwise_map.2 (List.Pairwise.imp ?_ h)
  intro a b hab he
  exact String.lt_irrefl a.1 (by rw [he] at hab ⊢; exact hab)

namespace NameMap

theorem mem_toList_iff {m : NameMap α} {name : String} {value : α} :
    (name, value) ∈ m.toList ↔ m.find? name = some value :=
  (lookup_eq_some_iff m.sorted.nodup).symm

theorem mem_keys_iff {m : NameMap α} {name : String} :
    name ∈ m.keys ↔ ∃ value, m.find? name = some value := by
  rw [← Option.isSome_iff_exists]
  exact lookup_isSome_iff.symm

theorem mem_values_iff {m : NameMap α} {value : α} :
    value ∈ m.values ↔ ∃ name, m.find? name = some value := by
  unfold values
  rw [List.mem_map]
  constructor
  · rintro ⟨⟨name, v⟩, he, rfl⟩
    exact ⟨name, mem_toList_iff.1 he⟩
  · rintro ⟨name, h⟩
    exact ⟨(name, value), mem_toList_iff.2 h, rfl⟩

/-- A value is not the first one exactly if there is a value under an earlier name. -/
theorem mem_drop_one_values_iff {m : NameMap α} {value : α} :
    value ∈ m.values.drop 1 ↔ ∃ name other earlier, m.find? name = some value ∧
      m.find? other = some earlier ∧ other < name := by
  have hsorted := m.sorted
  simp only [← mem_toList_iff, values]
  cases hl : m.toList with
  | nil => simp
  | cons first rest =>
    rw [hl] at hsorted
    obtain ⟨hfirst, -⟩ := List.pairwise_cons.1 hsorted
    rw [List.map_cons, List.drop_succ_cons, List.drop_zero, List.mem_map]
    constructor
    · rintro ⟨⟨name, value⟩, he, rfl⟩
      exact ⟨name, first.1, first.2, List.mem_cons_of_mem _ he, List.mem_cons_self, hfirst _ he⟩
    · rintro ⟨name, other, earlier, he, hother, hlt⟩
      rcases List.mem_cons.1 he with rfl | he
      -- nothing comes before the first name
      · rcases List.mem_cons.1 hother with hother | hother
        · have hname : other = name := congrArg Prod.fst hother
          rw [hname] at hlt
          exact absurd hlt (String.lt_irrefl _)
        · exact absurd (String.lt_trans hlt (hfirst _ hother)) (String.lt_irrefl _)
      · exact ⟨(name, value), he, rfl⟩

theorem keys_nodup (m : NameMap α) : m.keys.Nodup := m.sorted.nodup

theorem keys_pairwise (m : NameMap α) : m.keys.Pairwise (· < ·) := List.pairwise_map.2 m.sorted

/-- Maps with the same lookups are equal. -/
theorem ext {a b : NameMap α} (h : ∀ name, a.find? name = b.find? name) : a = b := by
  have hp : a.toList.Perm b.toList := by
    rw [List.perm_ext_iff_of_nodup
      (List.Pairwise.of_map Prod.fst (fun _ _ hne he => hne (by rw [he])) a.sorted.nodup)
      (List.Pairwise.of_map Prod.fst (fun _ _ hne he => hne (by rw [he]))
      b.sorted.nodup)]
    rintro ⟨name, value⟩
    rw [mem_toList_iff, mem_toList_iff, h]
  have he : a.toList = b.toList := by
    apply hp.eq_of_pairwise _ a.sorted b.sorted
    intro x y _ _ hxy hyx
    exact absurd (String.lt_trans hxy hyx) (String.lt_irrefl _)
  cases a
  cases b
  simpa using he

theorem find?_foldl_insert (entries : List (String × α)) (m : NameMap α) (name : String) :
    (entries.foldl (fun m e => m.insert e.1 e.2) m).find? name =
      (entries.reverse.lookup name).or (m.find? name) := by
  induction entries generalizing m with
  | nil => simp
  | cons e rest ih =>
    rw [List.foldl_cons, ih, find?_insert, List.reverse_cons, List.lookup_append]
    obtain ⟨key, value⟩ := e
    rw [lookup_cons_ite, List.lookup_nil]
    cases rest.reverse.lookup name with
    | some v => simp
    | none => by_cases he : name = key <;> simp [he]

theorem find?_ofList (entries : List (String × α)) (name : String) :
    (ofList entries).find? name = entries.reverse.lookup name := by
  simp [ofList, find?_foldl_insert]

theorem find?_ofList_of_singleValued {entries : List (String × α)} (hs : SingleValued entries)
    {name : String} {value : α} :
    (ofList entries).find? name = some value ↔ (name, value) ∈ entries := by
  have hr : SingleValued entries.reverse := fun name a b ha hb =>
    hs name a b (List.mem_reverse.1 ha) (List.mem_reverse.1 hb)
  rw [find?_ofList, hr.lookup_eq_some_iff, List.mem_reverse]

theorem ofList_eq_of_mem_iff {a b : List (String × α)} (hs : SingleValued a)
    (h : ∀ e, e ∈ a ↔ e ∈ b) : ofList a = ofList b := by
  have hb : SingleValued b := fun name x y hx hy =>
    hs name x y ((h _).2 hx) ((h _).2 hy)
  apply ext
  intro name
  apply Option.ext
  intro value
  rw [find?_ofList_of_singleValued hs, find?_ofList_of_singleValued hb, h]

/-- A map that is made from entries in name order keeps them as they are. -/
theorem toList_ofList {entries : List (String × α)} (h : NamesSorted entries) :
    (ofList entries).toList = entries := by
  have heq : ofList entries = ⟨entries, h⟩ := by
    apply ext
    intro name
    apply Option.ext
    intro value
    rw [find?_ofList_of_singleValued (singleValued_of_nodup h.nodup),
      ← mem_toList_iff]
  rw [heq]

theorem keys_map {β : Type} (m : NameMap α) (f : String → α → β) : (m.map f).keys = m.keys := by
  simp [keys, map]

theorem find?_map {β : Type} (m : NameMap α) (f : String → α → β) (name : String) :
    (m.map f).find? name = (m.find? name).map (f name) := by
  apply Option.ext
  intro value
  rw [← mem_toList_iff, map, List.mem_map, Option.map_eq_some_iff]
  constructor
  · rintro ⟨⟨other, a⟩, hm, he⟩
    cases he
    exact ⟨a, mem_toList_iff.1 hm, rfl⟩
  · rintro ⟨a, ha, rfl⟩
    exact ⟨(name, a), mem_toList_iff.2 ha, rfl⟩

end NameMap

namespace NameSet

theorem mem_keys_add {s : NameSet} {name other : String} :
    other ∈ (s.add name).keys ↔ other = name ∨ other ∈ s.keys := by
  rw [NameMap.mem_keys_iff, NameMap.mem_keys_iff, add]
  simp only [NameMap.find?_insert]
  by_cases he : other = name <;> simp [he]

theorem contains_iff {s : NameSet} {name : String} : s.contains name ↔ name ∈ s.keys := by
  rw [NameMap.mem_keys_iff, ← Option.isSome_iff_exists]
  rfl

theorem contains_addAll {s : NameSet} {names : List String} {name : String} :
    (s.addAll names).contains name ↔ s.contains name ∨ name ∈ names := by
  induction names generalizing s with
  | nil => simp [addAll]
  | cons first rest ih =>
    have hstep : s.addAll (first :: rest) = (s.add first).addAll rest := rfl
    rw [hstep, ih, contains_iff, mem_keys_add, ← contains_iff, List.mem_cons]
    tauto

theorem mem_keys_ofNames {names : List String} {name : String} :
    name ∈ (ofNames names).keys ↔ name ∈ names := by
  rw [← contains_iff, ofNames, contains_addAll, contains_iff]
  exact or_iff_right List.not_mem_nil

theorem contains_union {s t : NameSet} {name : String} :
    (s.union t).contains name ↔ s.contains name ∨ t.contains name := by
  rw [union, contains_addAll, ← contains_iff]

end NameSet

end SchemaModel
