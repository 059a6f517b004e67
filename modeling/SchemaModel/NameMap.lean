/-!
Maps keyed by names, kept in name order. Every list of schemas a model shows is in this order,
so the order of insertion never reaches an answer.

`lookup_insert` says what an insertion changes, `insert_sorted` that the order is kept.
-/

namespace SchemaModel

/-- Entries in strictly ascending order of their names. -/
def NamesSorted {α : Type} (entries : List (String × α)) : Prop :=
  entries.Pairwise fun a b => a.1 < b.1

namespace NameMap

/-- Puts an entry at its place in name order, in place of an entry of the same name. -/
def insertEntry {α : Type} (name : String) (value : α) :
    List (String × α) → List (String × α)
  | [] => [(name, value)]
  | (other, old) :: rest =>
    if name < other then (name, value) :: (other, old) :: rest
    else if name = other then (name, value) :: rest
    else (other, old) :: insertEntry name value rest

theorem mem_insertEntry {α : Type} {name : String} {value : α} {entries : List (String × α)}
    {e : String × α} (h : e ∈ insertEntry name value entries) :
    e = (name, value) ∨ e ∈ entries := by
  induction entries with
  | nil => simpa [insertEntry] using h
  | cons a rest ih =>
    obtain ⟨other, old⟩ := a
    unfold insertEntry at h
    split at h
    · simpa using h
    · split at h
      · rcases List.mem_cons.1 h with h | h
        · exact .inl h
        · exact .inr (List.mem_cons_of_mem _ h)
      · rcases List.mem_cons.1 h with h | h
        · exact .inr (h ▸ List.mem_cons_self)
        · rcases ih h with h | h
          · exact .inl h
          · exact .inr (List.mem_cons_of_mem _ h)

theorem insertEntry_sorted {α : Type} (name : String) (value : α)
    {entries : List (String × α)} (h : NamesSorted entries) :
    NamesSorted (insertEntry name value entries) := by
  induction entries with
  | nil => simp [insertEntry, NamesSorted]
  | cons a rest ih =>
    obtain ⟨other, old⟩ := a
    obtain ⟨hall, hrest⟩ := List.pairwise_cons.1 h
    unfold insertEntry
    split
    · rename_i hlt
      refine List.pairwise_cons.2 ⟨fun e he => ?_, h⟩
      rcases List.mem_cons.1 he with he | he
      · exact he ▸ hlt
      · exact String.lt_trans hlt (hall e he)
    · split
      · rename_i heq
        exact List.pairwise_cons.2 ⟨fun e he => heq ▸ hall e he, hrest⟩
      · rename_i hnlt hne
        refine List.pairwise_cons.2 ⟨fun e he => ?_, ih hrest⟩
        rcases mem_insertEntry he with he | he
        · subst he
          have hle : other ≤ name := String.not_lt.1 hnlt
          exact String.not_le.1 fun hge => hne (String.le_antisymm hge hle)
        · exact hall e he

end NameMap

/-- A finite map from names, listed in name order. -/
structure NameMap (α : Type) where
  toList : List (String × α)
  sorted : NamesSorted toList

namespace NameMap

variable {α : Type}

def empty : NameMap α := ⟨[], List.Pairwise.nil⟩

instance : EmptyCollection (NameMap α) := ⟨empty⟩

instance : Inhabited (NameMap α) := ⟨empty⟩

def insert (m : NameMap α) (name : String) (value : α) : NameMap α :=
  ⟨insertEntry name value m.toList, insertEntry_sorted name value m.sorted⟩

def find? (m : NameMap α) (name : String) : Option α :=
  m.toList.lookup name

def contains (m : NameMap α) (name : String) : Bool :=
  (m.find? name).isSome

def keys (m : NameMap α) : List String :=
  m.toList.map Prod.fst

def values (m : NameMap α) : List α :=
  m.toList.map Prod.snd

def size (m : NameMap α) : Nat :=
  m.toList.length

/-- Later entries replace earlier ones of the same name. -/
def ofList (entries : List (String × α)) : NameMap α :=
  entries.foldl (fun m e => m.insert e.1 e.2) empty

theorem map_sorted {β : Type} (f : String → α → β) {entries : List (String × α)}
    (h : NamesSorted entries) : NamesSorted (entries.map fun e => (e.1, f e.1 e.2)) :=
  List.pairwise_map.2 h

/-- Applies a function to every value. -/
def map {β : Type} (m : NameMap α) (f : String → α → β) : NameMap β :=
  ⟨m.toList.map fun e => (e.1, f e.1 e.2), map_sorted f m.sorted⟩

theorem lookup_cons_ite (name key : String) (value : α) (rest : List (String × α)) :
    ((key, value) :: rest).lookup name = if name = key then some value else rest.lookup name := by
  by_cases h : name = key
  · simp [h]
  · have hb : (name == key) = false := by simpa using h
    simp [List.lookup_cons, hb, h]

theorem lookup_insertEntry (name other : String) (value : α) (entries : List (String × α)) :
    (insertEntry name value entries).lookup other =
      if other = name then some value else entries.lookup other := by
  induction entries with
  | nil => simp only [insertEntry, lookup_cons_ite, List.lookup_nil]
  | cons a rest ih =>
    obtain ⟨key, old⟩ := a
    unfold insertEntry
    split
    · rw [lookup_cons_ite]
    · split
      · rename_i heq
        subst heq
        simp only [lookup_cons_ite]
        split <;> rfl
      · rename_i hne
        rw [lookup_cons_ite, lookup_cons_ite, ih]
        split
        · rename_i hk
          rw [if_neg (fun h => hne (h.symm.trans hk))]
        · rfl

@[simp] theorem find?_insert (m : NameMap α) (name other : String) (value : α) :
    (m.insert name value).find? other = if other = name then some value else m.find? other :=
  lookup_insertEntry name other value m.toList

@[simp] theorem find?_empty (name : String) : (empty : NameMap α).find? name = none := rfl

end NameMap

/-- A finite set of names, listed in name order. -/
abbrev NameSet := NameMap Unit

namespace NameSet

def add (s : NameSet) (name : String) : NameSet :=
  s.insert name ()

/-- The names of `s` and of the list. -/
def addAll (s : NameSet) (names : List String) : NameSet :=
  names.foldl add s

def ofNames (names : List String) : NameSet :=
  addAll .empty names

def union (s t : NameSet) : NameSet :=
  addAll s t.keys

end NameSet

end SchemaModel
