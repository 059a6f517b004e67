import Mathlib.Data.List.Forall2
import SchemaModel.Proofs.Document.Grammar

/-!
The order of what is read. The properties of a node, and those of all nodes inside, are in the
order of the value (`Node.follows_of_read?`).
-/

namespace SchemaModel

open Json

/-- The value of a keyword, in an object or in its place in a list. -/
def Json.keyword? : Json → String → Option Json
  | .obj fields, key => fields.lookup key
  | .arr items, key => (Schema.keywords.zip items).lookup key
  | _, _ => none

/-- The items under a keyword that has a list. -/
def Json.itemsAt (v : Json) (key : String) : List Json := ((v.keyword? key).bind arr?).getD []

/-- The members under a keyword that has an object. -/
def Json.membersAt (v : Json) (key : String) : List (String × Json) :=
  ((v.keyword? key).bind obj?).getD []

/-- The properties of a node are in the order of the value, and so are those of the nodes inside,
which stand for the values in their places. -/
inductive Follows : Json → Node → Prop where
  | ref {v : Json} {path : String} (ref : v.get? "$ref" = some (.str path)) : Follows v (.ref path)
  | schema {v : Json} {s : Schema}
      (names : s.properties.map Prod.fst = (v.membersAt "properties").map Prod.fst)
      (properties : List.Forall₂ Follows ((v.membersAt "properties").map Prod.snd)
        (s.properties.map Prod.snd))
      (allOf : List.Forall₂ Follows (v.itemsAt "allOf") s.allOf)
      (oneOf : List.Forall₂ Follows (v.itemsAt "oneOf") s.oneOf)
      (anyOf : List.Forall₂ Follows (v.itemsAt "anyOf") s.anyOf)
      (additional : ∀ w node, v.keyword? "additionalProperties" = some w →
        s.additional = some (.values node) → Follows w node)
      (items : ∀ w node, v.keyword? "items" = some w → s.items = some node → Follows w node) :
      Follows v (.schema s)

theorem forall₂_of_mapM {α β : Type} {f : α → Option β} {l : List α} {r : List β}
    (h : l.mapM f = some r) : List.Forall₂ (fun a b => f a = some b) l r := by
  induction l generalizing r with
  | nil =>
    cases h
    exact .nil
  | cons a rest ih =>
    rw [List.mapM_cons] at h
    obtain ⟨b, hb, h⟩ := Option.bind_eq_some_iff.1 h
    obtain ⟨bs, hbs, h⟩ := Option.bind_eq_some_iff.1 h
    cases h
    exact .cons hb (ih hbs)

theorem forall₂_imp_of_mem {α β : Type} {R S : α → β → Prop} {l : List α} {r : List β}
    (h : List.Forall₂ R l r) (himp : ∀ a ∈ l, ∀ b, R a b → S a b) : List.Forall₂ S l r := by
  rw [List.forall₂_iff_zip] at h ⊢
  exact ⟨h.1, fun hmem => himp _ (List.of_mem_zip hmem).1 _ (h.2 hmem)⟩

section

variable {v : Json} {fields : List (String × Json)} {key : String}

/-- The nodes under a keyword are read one by one, from smaller values. -/
theorem Node.forall₂_itemsAt {nodes : List Node} (hv : v.keyword? key = fields.lookup key)
    (h : defaulted fields key [] Node.readList? = some nodes) :
    List.Forall₂ (fun w node => sizeOf w < extent fields ∧ Node.read? w = some node)
      (v.itemsAt key) nodes := by
  rw [itemsAt, hv]
  unfold defaulted at h
  split at h <;> rename_i hlookup <;> rw [hlookup]
  · cases h
    exact .nil
  · rename_i w
    have hsize := sizeOf_lt_of_lookup hlookup
    cases w with
    | arr items =>
      rw [readList?, readItems?_eq] at h
      refine forall₂_imp_of_mem (forall₂_of_mapM h) fun w hw node hnode => ⟨?_, hnode⟩
      have hitem : sizeOf w < sizeOf items := List.sizeOf_lt_of_mem hw
      simp at hsize
      omega
    | _ => simp [readList?] at h

/-- The nodes under a keyword keep their names, and are read one by one. -/
theorem Node.forall₂_membersAt {nodes : List (String × Node)}
    (hv : v.keyword? key = fields.lookup key)
    (h : defaulted fields key [] Node.readMap? = some nodes) :
    nodes.map Prod.fst = (v.membersAt key).map Prod.fst ∧
      List.Forall₂ (fun w node => sizeOf w < extent fields ∧ Node.read? w = some node)
        ((v.membersAt key).map Prod.snd) (nodes.map Prod.snd) := by
  rw [membersAt, hv]
  unfold defaulted at h
  split at h <;> rename_i hlookup <;> rw [hlookup]
  · cases h
    exact ⟨rfl, .nil⟩
  · rename_i w
    have hsize := sizeOf_lt_of_lookup hlookup
    cases w with
    | obj members =>
      rw [readMap?, readFields?_eq] at h
      obtain ⟨values, hvalues, rfl⟩ := Option.map_eq_some_iff.1 h
      have hread := forall₂_of_mapM hvalues
      have hl : (members.map Prod.fst).length = values.length := by
        rw [← hread.length_eq, List.length_map, List.length_map]
      rw [List.map_fst_zip (Nat.le_of_eq hl), List.map_snd_zip (Nat.le_of_eq hl.symm)]
      refine ⟨rfl, forall₂_imp_of_mem hread fun w hw node hnode => ⟨?_, hnode⟩⟩
      obtain ⟨e, hmem, rfl⟩ := List.mem_map.1 hw
      have hmember : sizeOf e < sizeOf members := List.sizeOf_lt_of_mem hmem
      obtain ⟨name, value⟩ := e
      simp at hsize hmember ⊢
      omega
    | _ => simp [readMap?] at h

theorem read?_of_optional {α : Type} {read? : Json → Option α} {w : Json} {a : α}
    (h : optional fields key read? = some (some a)) (hw : fields.lookup key = some w) :
    read? w = some a := by
  unfold Json.optional at h
  split at h <;> rename_i hlookup <;> rw [hw] at hlookup <;> cases hlookup
  · cases h
  · obtain ⟨_, hread, heq⟩ := Option.map_eq_some_iff.1 h
    cases heq
    exact hread

/-- A schema follows the order of its members if the nodes inside follow that of theirs. -/
theorem Schema.follows_of_read? {s : Schema} (hv : ∀ key, v.keyword? key = fields.lookup key)
    (ih : ∀ w : Json, sizeOf w < extent fields → ∀ node, Node.read? w = some node →
      Follows w node)
    (h : read? fields = some s) : Follows v (.schema s) := by
  have hread := readFrom_of_read? h
  have hinside : ∀ w node, sizeOf w < extent fields ∧ Node.read? w = some node → Follows w node :=
    fun w node hw => ih w hw.1 node hw.2
  obtain ⟨hnames, hproperties⟩ := Node.forall₂_membersAt (hv "properties") hread.properties
  refine .schema hnames (hproperties.imp hinside)
    ((Node.forall₂_itemsAt (hv "allOf") hread.allOf).imp hinside)
    ((Node.forall₂_itemsAt (hv "oneOf") hread.oneOf).imp hinside)
    ((Node.forall₂_itemsAt (hv "anyOf") hread.anyOf).imp hinside) ?_ ?_
  · intro w node hw hnode
    rw [hv] at hw
    have hadditional := read?_of_optional (hnode ▸ hread.additional) hw
    refine ih w (sizeOf_lt_of_lookup hw) node ?_
    unfold Additional.read? at hadditional
    split at hadditional
    · cases hadditional
    · obtain ⟨_, hinner, heq⟩ := Option.map_eq_some_iff.1 hadditional
      cases heq
      exact hinner
  · intro w node hw hnode
    rw [hv] at hw
    exact ih w (sizeOf_lt_of_lookup hw) node (read?_of_optional (hnode ▸ hread.items) hw)

end

namespace Node

/-- What is read is in the order of the value. -/
theorem follows_of_read? {v : Json} {node : Node} (h : read? v = some node) : Follows v node := by
  have ih : ∀ w : Json, sizeOf w < sizeOf v → ∀ inner, read? w = some inner → Follows w inner :=
    fun w _ _ hinner => follows_of_read? hinner
  cases v with
  | obj fields =>
    rw [read?] at h
    split at h
    · rename_i path hpath
      cases h
      exact .ref hpath
    · obtain ⟨s, hs, rfl⟩ := Option.map_eq_some_iff.1 h
      have hextent := extent_le_sizeOf fields
      exact Schema.follows_of_read? (fun _ => rfl) (fun w hw => ih w (by simp; omega)) hs
  | arr items =>
    rw [read?] at h
    obtain ⟨-, h⟩ := Option.ite_none_right_eq_some.1 h
    obtain ⟨s, hs, rfl⟩ := Option.map_eq_some_iff.1 h
    have hextent := extent_zip_le_sizeOf Schema.keywords items
    exact Schema.follows_of_read? (fun _ => rfl) (fun w hw => ih w (by simp; omega)) hs
  | _ => simp [read?] at h
termination_by sizeOf v

end Node

end SchemaModel
