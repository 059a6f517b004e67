import SchemaModel.Proofs.Resolve.Alias

/-!
The name under which a schema at a position is resolved depends on the position only. A walk
from the component along the steps finds it: `Scope.placeAt` keeps on the way the name of the
schema that is being resolved, or the base name of the value whose type is being found.

A type is found in one of the ways that `Scope.Typed` lists (`typeNode_eq_ok_iff`).
`typeNode_placed` says that the inline schemas listed by a type are where the walk finds them,
so no other schema is ever listed at their positions or under another name.
-/

namespace SchemaModel

/-- Enums and objects get a name of their own, other values are spelled out. -/
def Category.isNamed : Category → Bool
  | .enum => true
  | .object => true
  | _ => false

namespace Schema

def isNamed (s : Schema) : Bool := s.singleAllOfRef?.isNone && s.category.isNamed

/-- The node of a property; of several declarations the last one counts. -/
def property? (s : Schema) (key : String) : Option Node := s.properties.reverse.lookup key

end Schema

/-- What stands at a position: a schema resolved under a name, or a value with the base of the
names for what is inside it. -/
inductive Place where
  | owner (name : String) (s : Schema)
  | value (base : String) (node : Node)

section

variable [Libraries]

namespace Scope

/-- The place of a value's node; an inline enum or object becomes an owner. -/
def enter (scope : Scope) (pointer : Pointer) (base : String) : Node → Place
  | .ref path => .value base (.ref path)
  | .schema s =>
    if s.isNamed then .owner (scope.inlineName base pointer) s else .value base (.schema s)

def innerOwner (name : String) : Option Node → Option Place
  | some (.schema s) => some (.owner name s)
  | _ => none

/-- The place one step inside another one; `pointer` is its position. -/
def childPlace (scope : Scope) (pointer : Pointer) : Place → Step → Option Place
  | .owner name s, .property key =>
    (s.property? key).map (scope.enter pointer (Naming.inlineName name key))
  | .owner name s, .items => s.items.map (scope.enter pointer (name ++ "Item"))
  | .owner name s, .additional =>
    match s.additional with
    | some (.values node) => some (scope.enter pointer (name ++ "Value") node)
    | _ => none
  | .owner name s, .allOf index => innerOwner name s.allOf[index]?
  | .owner name s, .oneOf index => innerOwner name s.oneOf[index]?
  | .owner name s, .anyOf index => innerOwner name s.anyOf[index]?
  | .value base (.schema s), .items => s.items.map (scope.enter pointer (base ++ "Item"))
  | .value base (.schema s), .additional =>
    match s.additional with
    | some (.values node) => some (scope.enter pointer (base ++ "Value") node)
    | _ => none
  | .value base (.schema s), .oneOf index => s.oneOf[index]?.map (scope.enter pointer base)
  | .value base (.schema s), .anyOf index => s.anyOf[index]?.map (scope.enter pointer base)
  | _, _ => none

def placeFrom (scope : Scope) (pointer : Pointer) (place : Place) : List Step → Option Place
  | [] => some place
  | step :: rest =>
    (scope.childPlace (pointer.push step) place step).bind fun inner =>
      placeFrom scope (pointer.push step) inner rest

def placeAt (scope : Scope) (pointer : Pointer) : Option Place :=
  (scope.document.definition? pointer.component).bind fun s =>
    scope.placeFrom (.ofComponent pointer.component) (.owner pointer.component s) pointer.steps

theorem placeFrom_append (scope : Scope) (component : String) (done steps more : List Step)
    (place : Place) :
    scope.placeFrom ⟨component, done⟩ place (steps ++ more) =
      (scope.placeFrom ⟨component, done⟩ place steps).bind fun inner =>
        scope.placeFrom ⟨component, done ++ steps⟩ inner more := by
  induction steps generalizing done place with
  | nil => simp [placeFrom]
  | cons step rest ih =>
    simp only [List.cons_append, placeFrom, Pointer.push, Option.bind_assoc, ih,
      List.append_assoc, List.nil_append]

theorem placeAt_push (scope : Scope) (pointer : Pointer) (step : Step) :
    scope.placeAt (pointer.push step) =
      (scope.placeAt pointer).bind fun place =>
        scope.childPlace (pointer.push step) place step := by
  obtain ⟨component, steps⟩ := pointer
  unfold placeAt
  simp only [Pointer.push, Pointer.ofComponent, Option.bind_assoc, placeFrom_append,
    List.nil_append]
  -- both sides go on from the schema of the component
  congr
  funext s
  congr
  funext place
  simp [placeFrom, Pointer.push]

theorem placeAt_ofComponent {scope : Scope} {name : String} {s : Schema}
    (h : scope.document.definition? name = some s) :
    scope.placeAt (.ofComponent name) = some (.owner name s) := by
  simp [placeAt, Pointer.ofComponent, h, placeFrom]

end Scope

end

theorem besideNull_index {keyword : UnionKeyword} {nodes : List Node} {u : NullableUnion}
    (h : besideNull? keyword nodes = some u) :
    u.keyword = keyword ∧ nodes[u.index]? = some u.inner := by
  unfold besideNull? at h
  split at h
  · split at h
    · cases h
      exact ⟨rfl, rfl⟩
    · cases h
      exact ⟨rfl, rfl⟩
    · cases h
  · cases h

namespace Schema

theorem nullableUnion_index {s : Schema} {u : NullableUnion} (h : s.nullableUnion? = some u) :
    (u.keyword = .oneOf ∧ s.oneOf[u.index]? = some u.inner) ∨
      (u.keyword = .anyOf ∧ s.anyOf[u.index]? = some u.inner) := by
  unfold nullableUnion? at h
  split at h
  · cases h
  · rw [Option.orElse_eq_or, Option.or_eq_some_iff] at h
    rcases h with h | ⟨-, h⟩
    · exact .inl (besideNull_index h)
    · exact .inr (besideNull_index h)

end Schema

namespace Scope

variable {scope : Scope} {pointer : Pointer} {name base : String} {s : Schema}

theorem enter_of_not_named (scope : Scope) (pointer : Pointer) (base : String)
    (h : s.isNamed = false) : scope.enter pointer base (.schema s) = .value base (.schema s) := by
  simp [enter, h]

theorem enter_of_named (scope : Scope) (pointer : Pointer) (base : String)
    (h : s.isNamed) :
    scope.enter pointer base (.schema s) = .owner (scope.inlineName base pointer) s := by
  simp [enter, h]

section

variable [Libraries]

theorem childPlace_value_union {u : NullableUnion} (h : s.nullableUnion? = some u) :
    scope.childPlace pointer (.value base (.schema s)) (u.keyword.step u.index) =
      some (scope.enter pointer base u.inner) := by
  rcases Schema.nullableUnion_index h with ⟨hk, hi⟩ | ⟨hk, hi⟩
  · simp [hk, UnionKeyword.step, childPlace, hi]
  · simp [hk, UnionKeyword.step, childPlace, hi]

theorem childPlace_owner_union {keyword : UnionKeyword} {index : Nat} {inner : Schema}
    (h : s.nullableUnion? = some ⟨keyword, index, .schema inner⟩) :
    scope.childPlace pointer (.owner name s) (keyword.step index) = some (.owner name inner) := by
  rcases Schema.nullableUnion_index h with ⟨hk, hi⟩ | ⟨hk, hi⟩
  · simp only at hk hi
    simp [hk, UnionKeyword.step, childPlace, hi, innerOwner]
  · simp only at hk hi
    simp [hk, UnionKeyword.step, childPlace, hi, innerOwner]

/-- An inline schema is listed under the name and with the schema of its position. -/
structure Placed (scope : Scope) (i : Inline) : Prop where
  place : scope.placeAt i.pointer = some (.owner i.name i.schema)
  named : i.schema.isNamed
  inside : i.pointer.steps ≠ []
  called : ∃ base, i.name = scope.inlineName base i.pointer

end

theorem steps_push_ne_nil (pointer : Pointer) (step : Step) : (pointer.push step).steps ≠ [] := by
  simp [Pointer.push]

/-- A node has a type that lists inline schemas: one case for each way to find a type. -/
inductive Typed (scope : Scope) (path : List String) (context : String) :
    String → Pointer → Node → TypeRef → List Inline → Prop where
  | reference {base target name : String} {pointer : Pointer} {type : TypeRef}
      (leads : scope.document.resolveRef context target = .ok name)
      (component : (scope.componentType path name).outcome = .ok type) :
      Typed scope path context base pointer (.ref target) type []
  | wrapper {base target name : String} {pointer : Pointer} {s : Schema} {type : TypeRef}
      (wraps : s.singleAllOfRef? = some target)
      (leads : scope.document.resolveRef context target = .ok name)
      (component : (scope.componentType path name).outcome = .ok type) :
      Typed scope path context base pointer (.schema s) type []
  | enum {base : String} {pointer : Pointer} {s : Schema} (unwrapped : s.singleAllOfRef? = none)
      (category : s.category = .enum) :
      Typed scope path context base pointer (.schema s)
        (.named (scope.inlineName base pointer)) [⟨scope.inlineName base pointer, pointer, s⟩]
  | object {base : String} {pointer : Pointer} {s : Schema} (unwrapped : s.singleAllOfRef? = none)
      (category : s.category = .object) :
      Typed scope path context base pointer (.schema s)
        (.named (scope.inlineName base pointer)) [⟨scope.inlineName base pointer, pointer, s⟩]
  | nullable {base : String} {pointer : Pointer} {s : Schema} {union : NullableUnion}
      {type : TypeRef} {inlines : List Inline} (unwrapped : s.singleAllOfRef? = none)
      (category : s.category = .nullableOf union)
      (inner : Typed scope path context base (pointer.push (union.keyword.step union.index))
        union.inner type inlines) :
      Typed scope path context base pointer (.schema s) type inlines
  | array {base : String} {pointer : Pointer} {s : Schema} {node : Node} {type : TypeRef}
      {inlines : List Inline} (unwrapped : s.singleAllOfRef? = none)
      (category : s.category = .array (some node))
      (items : Typed scope path context (base ++ "Item") (pointer.push .items) node type inlines) :
      Typed scope path context base pointer (.schema s) (.array type) inlines
  | map {base : String} {pointer : Pointer} {s : Schema} {node : Node} {type : TypeRef}
      {inlines : List Inline} (unwrapped : s.singleAllOfRef? = none)
      (category : s.category = .map (some node))
      (values : Typed scope path context (base ++ "Value") (pointer.push .additional) node type
        inlines) :
      Typed scope path context base pointer (.schema s) (.map type) inlines
  | anyArray {base : String} {pointer : Pointer} {s : Schema}
      (unwrapped : s.singleAllOfRef? = none) (category : s.category = .array none) :
      Typed scope path context base pointer (.schema s) (.array .untyped) []
  | anyMap {base : String} {pointer : Pointer} {s : Schema}
      (unwrapped : s.singleAllOfRef? = none) (category : s.category = .map none) :
      Typed scope path context base pointer (.schema s) (.map .untyped) []
  | union {base : String} {pointer : Pointer} {s : Schema}
      (unwrapped : s.singleAllOfRef? = none) (category : s.category = .union) :
      Typed scope path context base pointer (.schema s) .untyped []
  | primitive {base : String} {pointer : Pointer} {s : Schema} {type : Primitive}
      (unwrapped : s.singleAllOfRef? = none) (category : s.category = .primitive type) :
      Typed scope path context base pointer (.schema s) (.primitive type) []

theorem typed_of_typeNode {path : List String} {context base : String} {node : Node}
    {pointer : Pointer} {type : TypeRef} {inlines : List Inline}
    (h : (scope.typeNode path context base node pointer).outcome = .ok (type, inlines)) :
    scope.Typed path context base pointer node type inlines := by
  induction hsize : sizeOf node using Nat.strongRecOn generalizing node base pointer type with
  | ind n ih =>
    cases node with
    | ref target =>
      rw [typeNode_ref] at h
      simp only [Traced.outcome_bind_eq_ok_iff, Traced.outcome_lift, Traced.outcome_pure] at h
      obtain ⟨name, hr, t, ht, h⟩ := h
      cases h
      exact .reference hr ht
    | schema s =>
      rw [Node.schema.sizeOf_spec] at hsize
      rw [typeNode_schema] at h
      cases hw : s.singleAllOfRef? with
      | some target =>
        simp only [hw, Traced.outcome_bind_eq_ok_iff, Traced.outcome_lift,
          Traced.outcome_pure] at h
        obtain ⟨name, hr, t, ht, h⟩ := h
        cases h
        exact .wrapper hw hr ht
      | none =>
        simp only [hw] at h
        cases hc : s.category with
        | enum =>
          simp only [hc] at h
          cases h
          exact .enum hw hc
        | object =>
          simp only [hc] at h
          cases h
          exact .object hw hc
        | nullableOf union =>
          simp only [hc] at h
          have hlt := Schema.category_nullableOf_lt hc
          exact .nullable hw hc (ih _ (by omega) h rfl)
        | union =>
          simp only [hc, Traced.outcome_bind_eq_ok_iff, Traced.outcome_pure] at h
          obtain ⟨-, -, h⟩ := h
          cases h
          exact .union hw hc
        | array items =>
          cases items with
          | none =>
            simp only [hc] at h
            cases h
            exact .anyArray hw hc
          | some items =>
            simp only [hc, Traced.outcome_bind_eq_ok_iff, Traced.outcome_pure] at h
            obtain ⟨⟨t, found⟩, ht, h⟩ := h
            cases h
            have hlt := Schema.category_array_lt hc
            exact .array hw hc (ih _ (by omega) ht rfl)
        | map values =>
          cases values with
          | none =>
            simp only [hc] at h
            cases h
            exact .anyMap hw hc
          | some values =>
            simp only [hc, Traced.outcome_bind_eq_ok_iff, Traced.outcome_pure] at h
            obtain ⟨⟨t, found⟩, ht, h⟩ := h
            cases h
            have hlt := Schema.category_map_lt hc
            exact .map hw hc (ih _ (by omega) ht rfl)
        | primitive t =>
          simp only [hc] at h
          cases h
          exact .primitive hw hc

theorem Typed.typeNode {path : List String} {context base : String} {node : Node}
    {pointer : Pointer} {type : TypeRef} {inlines : List Inline}
    (h : scope.Typed path context base pointer node type inlines) :
    (scope.typeNode path context base node pointer).outcome = .ok (type, inlines) := by
  induction h with
  | reference hr ht =>
    simp only [typeNode_ref, Traced.outcome_bind_eq_ok_iff, Traced.outcome_lift]
    exact ⟨_, hr, _, ht, rfl⟩
  | wrapper hw hr ht =>
    simp only [typeNode_schema, hw, Traced.outcome_bind_eq_ok_iff, Traced.outcome_lift]
    exact ⟨_, hr, _, ht, rfl⟩
  | nullable hw hc _ ih =>
    simp only [typeNode_schema, hw, hc]
    exact ih
  | array hw hc _ ih | map hw hc _ ih =>
    simp only [typeNode_schema, hw, hc, Traced.outcome_bind_eq_ok_iff]
    exact ⟨_, ih, rfl⟩
  | enum hw hc | object hw hc | anyArray hw hc | anyMap hw hc | union hw hc | primitive hw hc =>
    simp only [typeNode_schema, hw, hc]
    rfl

/-- The types of nodes are those that are found in one of these ways. -/
theorem typeNode_eq_ok_iff {path : List String} {context base : String} {node : Node}
    {pointer : Pointer} {type : TypeRef} {inlines : List Inline} :
    (scope.typeNode path context base node pointer).outcome = .ok (type, inlines) ↔
      scope.Typed path context base pointer node type inlines :=
  ⟨typed_of_typeNode, Typed.typeNode⟩

variable [Libraries]

/-- Where the type of a node comes from: from a component, from no schema at all, from the inline
schema that the node is, or from a node one step inside it. -/
inductive TypeOrigin (scope : Scope) (path : List String) (context base : String)
    (pointer : Pointer) : Node → TypeRef → List Inline → Prop where
  | component {node : Node} {name : String} {type : TypeRef}
      (canonical : scope.document.Canonical name)
      (typed : (scope.componentType path name).outcome = .ok type) :
      TypeOrigin scope path context base pointer node type []
  | nameless {node : Node} {type : TypeRef} (none : type.element.named? = none) :
      TypeOrigin scope path context base pointer node type []
  | named {s : Schema} (named : s.isNamed) :
      TypeOrigin scope path context base pointer (.schema s)
        (.named (scope.inlineName base pointer)) [⟨scope.inlineName base pointer, pointer, s⟩]
  | inside {s : Schema} {step : Step} {base' : String} {inner : Node} {type type' : TypeRef}
      {inlines : List Inline} (unnamed : s.isNamed = false) (smaller : sizeOf inner < sizeOf s)
      (child : scope.childPlace (pointer.push step) (.value base (.schema s)) step =
        some (scope.enter (pointer.push step) base' inner))
      (typed : (scope.typeNode path context base' inner (pointer.push step)).outcome =
        .ok (type', inlines))
      (element : type.element = type'.element) :
      TypeOrigin scope path context base pointer (.schema s) type inlines

theorem typeNode_origin {path : List String} {context base : String} {node : Node}
    {pointer : Pointer} {type : TypeRef} {inlines : List Inline}
    (h : (scope.typeNode path context base node pointer).outcome = .ok (type, inlines)) :
    scope.TypeOrigin path context base pointer node type inlines := by
  cases typeNode_eq_ok_iff.1 h with
  | reference hr ht | wrapper _ hr ht =>
    exact .component (Document.canonical_of_resolveRef hr) ht
  | enum hw hc | object hw hc =>
    exact .named (by simp [Schema.isNamed, hw, hc, Category.isNamed])
  | nullable hw hc hi =>
    exact .inside (by simp [Schema.isNamed, hw, hc, Category.isNamed])
      (Schema.category_nullableOf_lt hc) (childPlace_value_union (Schema.category_nullableOf hc))
      hi.typeNode rfl
  | array hw hc hi =>
    exact .inside (by simp [Schema.isNamed, hw, hc, Category.isNamed])
      (Schema.category_array_lt hc) (by simp [childPlace, Schema.category_array hc])
      hi.typeNode rfl
  | map hw hc hi =>
    exact .inside (by simp [Schema.isNamed, hw, hc, Category.isNamed])
      (Schema.category_map_lt hc) (by simp [childPlace, Schema.category_map hc]) hi.typeNode rfl
  | anyArray | anyMap | union | primitive => exact .nameless rfl

/-- A type lists the inline schema that it names, or none. -/
theorem typeNode_inlines {path : List String} {context base : String} {node : Node}
    {pointer : Pointer} {type : TypeRef} {inlines : List Inline}
    (h : (scope.typeNode path context base node pointer).outcome = .ok (type, inlines)) :
    inlines = [] ∨ ∃ i, inlines = [i] ∧ type.element.named? = some i.name := by
  induction hsize : sizeOf node using Nat.strongRecOn generalizing node base pointer type with
  | ind n ih =>
    cases typeNode_origin h with
    | component => exact .inl rfl
    | nameless => exact .inl rfl
    | named hn => exact .inr ⟨_, rfl, rfl⟩
    | inside hn hlt hc ht helement =>
      rw [helement]
      refine ih _ ?_ ht rfl
      rw [← hsize, Node.schema.sizeOf_spec]
      omega

/-- The inline schemas of a type stand where the walk finds them. -/
theorem typeNode_placed {path : List String} {context base : String} {node : Node}
    {pointer : Pointer} {type : TypeRef} {inlines : List Inline}
    (h : (scope.typeNode path context base node pointer).outcome = .ok (type, inlines))
    (hp : scope.placeAt pointer = some (scope.enter pointer base node))
    (hs : pointer.steps ≠ []) : ∀ i ∈ inlines, scope.Placed i := by
  induction hsize : sizeOf node using Nat.strongRecOn generalizing node base pointer type with
  | ind n ih =>
    cases typeNode_origin h with
    | component => simp
    | nameless => simp
    | named hn =>
      rw [enter_of_named scope pointer base hn] at hp
      intro i hi
      rw [List.mem_singleton.1 hi]
      exact ⟨hp, hn, hs, base, rfl⟩
    | inside hn hlt hc ht =>
      rw [enter_of_not_named scope pointer base hn] at hp
      refine ih _ ?_ ht ?_ (steps_push_ne_nil _ _) rfl
      · rw [← hsize, Node.schema.sizeOf_spec]
        omega
      · rw [placeAt_push, hp, Option.bind_some, hc]

end Scope

end SchemaModel
