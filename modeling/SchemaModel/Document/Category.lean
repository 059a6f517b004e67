import SchemaModel.Document.Basic
import SchemaModel.Pointer
import SchemaModel.TypeRef

/-!
The kind of a schema, told from its keywords alone, before any reference is followed.

Walks over nodes go from a schema to the inner node of its category; `category_array_lt` and its
companions say that this node is smaller, so such a walk ends.
-/

namespace SchemaModel

/-- The keywords that list alternatives. -/
inductive UnionKeyword where
  | oneOf
  | anyOf
deriving DecidableEq, Repr

def UnionKeyword.name : UnionKeyword → String
  | oneOf => "oneOf"
  | anyOf => "anyOf"

def UnionKeyword.step : UnionKeyword → Nat → Step
  | oneOf => .oneOf
  | anyOf => .anyOf

/-- One alternative beside `null`: where it stands, and what it is. -/
structure NullableUnion where
  keyword : UnionKeyword
  index : Nat
  inner : Node

/-- The kinds of schemas. Arrays and maps may leave the type of their elements open. -/
inductive Category where
  | enum
  | object
  | union
  | nullableOf (union : NullableUnion)
  | array (items : Option Node)
  | map (values : Option Node)
  | primitive (type : Primitive)

namespace Schema

def nonNullType? (s : Schema) : Option SchemaType :=
  match s.type with
  | none => none
  | some (.single type) => if type = .null then none else some type
  | some (.multiple types) => types.find? fun t => t != .null

def hasUnion (s : Schema) : Bool := !s.oneOf.isEmpty || !s.anyOf.isEmpty

/-- Nothing but the type `null`. -/
def isNull (s : Schema) : Bool :=
  let nullOnly := match s.type with
    | some (.single type) => type == .null
    | some (.multiple types) => !types.isEmpty && types.all (· == .null)
    | none => false
  nullOnly && s.properties.isEmpty && !s.hasUnion && s.allOf.isEmpty

def hasEnumValues (s : Schema) : Bool := s.enum.any fun v => !v.isNull

end Schema

def Node.isNullOnly : Node → Bool
  | .ref _ => false
  | .schema s => s.isNull

/-- The alternative of a list of two that is not `null`, if the other one is. -/
def besideNull? (keyword : UnionKeyword) : List Node → Option NullableUnion
  | [a, b] =>
    match a.isNullOnly, b.isNullOnly with
    | false, true => some ⟨keyword, 0, a⟩
    | true, false => some ⟨keyword, 1, b⟩
    | _, _ => none
  | _ => none

namespace Schema

def nullableUnion? (s : Schema) : Option NullableUnion :=
  if s.discriminator.isSome then none
  else (besideNull? .oneOf s.oneOf).orElse fun _ => besideNull? .anyOf s.anyOf

/-- Marked nullable, of a type list with `null`, or a union with `null`. -/
def isNullable (s : Schema) : Bool :=
  s.nullable == some true ||
    (match s.type with
      | some (.multiple types) => types.contains .null
      | _ => false) ||
    s.nullableUnion?.isSome

/-- The reference of a schema that only wraps one by `allOf`. -/
def singleAllOfRef? (s : Schema) : Option String :=
  match s.allOf with
  | [.ref path] =>
    if s.properties.isEmpty && !s.hasUnion && s.discriminator.isNone && s.additional.isNone &&
        !s.hasEnumValues then
      some path
    else none
  | _ => none

def primitiveType (s : Schema) : Primitive :=
  match s.nonNullType? with
  | some type => Primitive.ofSchema type s.format
  | none => .untyped

/-- The kind of a schema that declares neither members nor alternatives. -/
def plainCategory (s : Schema) : Category :=
  match s.nonNullType?, s.additional with
  | some .array, _ => .array s.items
  | some .object, some (.values node) => .map (some node)
  | some .object, some (.flag false) => .object
  | some .object, _ => .map none
  | some _, _ => .primitive s.primitiveType
  | none, some (.values node) => .map (some node)
  | none, some (.flag true) => .map none
  | none, _ => .primitive .untyped

def category (s : Schema) : Category :=
  if s.hasEnumValues then .enum
  else match s.nullableUnion? with
    | some union => .nullableOf union
    | none =>
      if s.hasUnion then if s.discriminator.isSome then .object else .union
      else if !s.properties.isEmpty || !s.allOf.isEmpty || s.discriminator.isSome then .object
      else s.plainCategory

theorem mem_of_besideNull {keyword : UnionKeyword} {nodes : List Node} {u : NullableUnion}
    (h : besideNull? keyword nodes = some u) : u.inner ∈ nodes := by
  unfold besideNull? at h
  split at h
  · split at h
    · cases h
      simp
    · cases h
      simp
    · cases h
  · cases h

theorem nullableUnion_lt {s : Schema} {u : NullableUnion} (h : s.nullableUnion? = some u) :
    sizeOf u.inner < sizeOf s := by
  unfold nullableUnion? at h
  split at h
  · simp at h
  · rw [Option.orElse_eq_or, Option.or_eq_some_iff] at h
    rcases h with h | ⟨_, h⟩
    · exact sizeOf_lt_of_mem_oneOf (mem_of_besideNull h)
    · exact sizeOf_lt_of_mem_anyOf (mem_of_besideNull h)

theorem category_nullableOf {s : Schema} {u : NullableUnion}
    (h : s.category = .nullableOf u) : s.nullableUnion? = some u := by
  unfold category at h
  split at h
  · simp at h
  · split at h
    · cases h
      assumption
    · unfold plainCategory at h
      split at h
      · split at h <;> simp at h
      · split at h
        · simp at h
        · split at h <;> simp at h

theorem category_nullableOf_lt {s : Schema} {u : NullableUnion}
    (h : s.category = .nullableOf u) : sizeOf u.inner < sizeOf s :=
  nullableUnion_lt (category_nullableOf h)

theorem category_array {s : Schema} {items : Option Node} (h : s.category = .array items) :
    s.items = items := by
  unfold category at h
  split at h
  · simp at h
  · split at h
    · simp at h
    · unfold plainCategory at h
      split at h
      · split at h <;> simp at h
      · split at h
        · simp at h
        · split at h <;> simp_all

theorem category_array_lt {s : Schema} {n : Node} (h : s.category = .array (some n)) :
    sizeOf n < sizeOf s :=
  sizeOf_lt_of_items (category_array h)

theorem category_map {s : Schema} {n : Node} (h : s.category = .map (some n)) :
    s.additional = some (.values n) := by
  unfold category at h
  split at h
  · simp at h
  · split at h
    · simp at h
    · unfold plainCategory at h
      split at h
      · split at h <;> simp at h
      · split at h
        · simp at h
        · split at h <;> simp_all

theorem category_map_lt {s : Schema} {n : Node} (h : s.category = .map (some n)) :
    sizeOf n < sizeOf s :=
  sizeOf_lt_of_additional (category_map h)

end Schema

namespace Node

/-- A bare reference is never nullable of itself. -/
def isNullable : Node → Bool
  | .ref _ => false
  | .schema s => s.isNullable

/-- A reference, or a wrapper around a single one. -/
def isReferenceLike : Node → Bool
  | .ref _ => true
  | .schema s =>
    s.singleAllOfRef?.isSome || match _h : s.nullableUnion? with
      | some union => isReferenceLike union.inner
      | none => false
termination_by n => sizeOf n
decreasing_by
  have := Schema.nullableUnion_lt _h
  simp
  omega

/-- The reference by which a component is only another name: a `$ref`, or a union of one with
`null`. -/
def aliasTarget? : Node → Option String
  | .ref path => some path
  | .schema s =>
    match s.nullableUnion? with
    | some ⟨_, _, .ref path⟩ => some path
    | _ => none

end Node

end SchemaModel
