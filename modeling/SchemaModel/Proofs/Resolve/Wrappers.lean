import SchemaModel.Proofs.Computed
import SchemaModel.Proofs.Resolve.Inlined

/-!
Wrappers around the node of a property: a union of it with `null`, and an `allOf` with nothing in
it but a reference. Its type, its keywords, whether it may be null and whether it is like a
reference are each looked up behind the wrapper by a walk of their own. Together they find the
property that the node itself declares, under what the wrapper says
(`Scope.resolveProperty_wrapper`).

A union stands one step outside of its node, so the schemas inside the node are moved. Where none
is renamed, moving a node moves what its type lists and nothing else (`Scope.typeNode_under`).
-/

namespace SchemaModel

namespace Pointer

/-- The position at which a position of another schema is found if that schema stands at `outer`. -/
def under (outer inner : Pointer) : Pointer := ⟨outer.component, outer.steps ++ inner.steps⟩

/-- A position inside `outer`, with a step more on the way from there. -/
def through (outer : Pointer) (step : Step) (inner : Pointer) : Pointer :=
  ⟨outer.component, outer.steps ++ step :: inner.steps.drop outer.steps.length⟩

theorem under_push (outer inner : Pointer) (step : Step) :
    (outer.under inner).push step = outer.under (inner.push step) := by
  simp [under, push]

theorem under_nil (outer : Pointer) (component : String) : outer.under ⟨component, []⟩ = outer := by
  simp [under]

theorem through_under (outer : Pointer) (step : Step) (inner : Pointer) :
    outer.through step (outer.under inner) = (outer.push step).under inner := by
  simp [through, under, push]

end Pointer

def Inline.move (f : Pointer → Pointer) (i : Inline) : Inline := { i with pointer := f i.pointer }

namespace Scope

variable {scope : Scope}

theorem inlineName_of_no_renames (h : scope.renames = []) (base : String) (pointer : Pointer) :
    scope.inlineName base pointer = Naming.fresh base scope.document.names := by
  rw [inlineName, h]
  rfl

/-- A node that is moved has the type that it had, and lists the same schemas where they are now. -/
theorem typeNode_under (h : scope.renames = []) (path : List String) (context base : String)
    (node : Node) (outer inner : Pointer) :
    scope.typeNode path context base node (outer.under inner) =
      Prod.map id (List.map (Inline.move outer.under)) <$>
        scope.typeNode path context base node inner := by
  induction hsize : sizeOf node using Nat.strongRecOn generalizing node base inner with
  | ind n ih =>
    cases node with
    | ref target =>
      rw [typeNode_ref, typeNode_ref]
      simp only [map_bind, map_pure, Prod.map, List.map_nil, id]
    | schema s =>
      rw [Node.schema.sizeOf_spec] at hsize
      rw [typeNode_schema, typeNode_schema]
      cases s.singleAllOfRef? with
      | some target => simp only [map_bind, map_pure, Prod.map, List.map_nil, id]
      | none =>
        cases hc : s.category with
        | enum =>
          simp only [inlineName_of_no_renames h]
          rfl
        | object =>
          simp only [inlineName_of_no_renames h]
          rfl
        | nullableOf union =>
          have hlt := Schema.category_nullableOf_lt hc
          simp only [Pointer.under_push]
          exact ih _ (by omega) _ _ _ rfl
        | union => rfl
        | array items =>
          cases items with
          | none => rfl
          | some items =>
            have hlt := Schema.category_array_lt hc
            simp only [Pointer.under_push, ih (sizeOf items) (by omega) _ items _ rfl,
              bind_map_left, map_bind, map_pure, Prod.map, id]
        | map values =>
          cases values with
          | none => rfl
          | some values =>
            have hlt := Schema.category_map_lt hc
            simp only [Pointer.under_push, ih (sizeOf values) (by omega) _ values _ rfl,
              bind_map_left, map_bind, map_pure, Prod.map, id]
        | primitive type => rfl

theorem typeNode_through (h : scope.renames = []) (path : List String) (context base : String)
    (node : Node) (pointer : Pointer) (step : Step) :
    scope.typeNode path context base node (pointer.push step) =
      Prod.map id (List.map (Inline.move (pointer.through step))) <$>
        scope.typeNode path context base node pointer := by
  have hunder : ∀ outer, scope.typeNode path context base node outer =
      Prod.map id (List.map (Inline.move outer.under)) <$>
        scope.typeNode path context base node ⟨"", []⟩ := by
    intro outer
    rw [← typeNode_under h, Pointer.under_nil]
  rw [hunder (pointer.push step), hunder pointer, ← comp_map]
  congr 1
  funext ⟨type, inlines⟩
  simp [Prod.map, Inline.move, Pointer.through_under]

end Scope

/-- What a wrapper says itself. -/
structure Overlay where
  description : Option String
  default : Option Json
  nullable : Option Bool

namespace Overlay

/-- The schema that says this and nothing else. -/
def schema (o : Overlay) : Schema :=
  { Schema.empty with
    description := o.description
    default := o.default
    nullable := o.nullable }

/-- A union of a node with another one, which is `null`. -/
def union (o : Overlay) (keyword : UnionKeyword) (nullFirst : Bool) (node null : Node) : Schema :=
  let members := if nullFirst then [null, node] else [node, null]
  match keyword with
  | .oneOf => { o.schema with oneOf := members }
  | .anyOf => { o.schema with anyOf := members }

/-- The step from the union to the node. -/
def member (keyword : UnionKeyword) (nullFirst : Bool) : Step :=
  keyword.step (if nullFirst then 1 else 0)

/-- A wrapper around a single reference. -/
def around (o : Overlay) (target : String) : Schema := { o.schema with allOf := [.ref target] }

/-- A property under what the wrapper says. -/
def apply (o : Overlay) (p : ResolvedProperty) : ResolvedProperty :=
  { p with
    nullable := p.nullable || o.nullable == some true
    default := o.default.orElse fun _ => p.default
    description := o.description.orElse fun _ => p.description }

theorem apply_blank (p : ResolvedProperty) : (Overlay.mk none none none).apply p = p := by
  simp [apply]

variable {o : Overlay} {keyword : UnionKeyword} {nullFirst : Bool} {node null : Node}

theorem nullableUnion_union (hnode : node.isNullOnly = false) (hnull : null.isNullOnly) :
    (o.union keyword nullFirst node null).nullableUnion? =
      some ⟨keyword, if nullFirst then 1 else 0, node⟩ := by
  cases keyword <;> cases nullFirst <;>
    simp [union, schema, Schema.empty, Schema.nullableUnion?, besideNull?, hnode, hnull]

theorem singleAllOfRef_union : (o.union keyword nullFirst node null).singleAllOfRef? = none := by
  cases keyword <;> rfl

theorem category_union (hnode : node.isNullOnly = false) (hnull : null.isNullOnly) :
    (o.union keyword nullFirst node null).category =
      .nullableOf ⟨keyword, if nullFirst then 1 else 0, node⟩ := by
  have henum : (o.union keyword nullFirst node null).hasEnumValues = false := by
    cases keyword <;> rfl
  rw [Schema.category, henum, nullableUnion_union hnode hnull]
  rfl

theorem isReferenceLike_union (hnode : node.isNullOnly = false) (hnull : null.isNullOnly) :
    (Node.schema (o.union keyword nullFirst node null)).isReferenceLike =
      node.isReferenceLike := by
  rw [Node.isReferenceLike, singleAllOfRef_union]
  simp only [Option.isSome_none, Bool.false_or]
  split <;> rename_i h <;> rw [nullableUnion_union hnode hnull] at h <;> cases h
  rfl

end Overlay

section

variable [Libraries]

namespace Scope

variable {owner key : String} {pointer : Pointer} {node null : Node} {o : Overlay}

/-- Two properties of which one is typed, read and classified like the other. -/
theorem resolveProperty_congr {scope : Scope} {a b : Node} (move : List Inline → List Inline)
    (nullable : Bool → Bool)
    (ht : scope.typeNode [] owner (Naming.inlineName owner key) a (pointer.push (.property key)) =
      Prod.map id move <$> scope.typeNode [] owner (Naming.inlineName owner key) b
        (pointer.push (.property key)))
    (he : scope.document.effective owner a =
      Document.effective.overlay o.schema <$> scope.document.effective owner b)
    (hr : a.isReferenceLike = b.isReferenceLike)
    (hn : ∀ n, scope.document.isNullable owner b = .ok n →
      scope.document.isNullable owner a = .ok (nullable n)) :
    scope.resolveProperty owner pointer key a =
      (fun p => { p with
        nullable := nullable p.nullable
        default := o.default.orElse fun _ => p.default
        description := o.description.orElse fun _ => p.description
        inlines := move p.inlines }) <$> scope.resolveProperty owner pointer key b := by
  unfold resolveProperty
  rw [ht, he, bind_map_left]
  simp only [map_bind]
  refine bind_congr fun found => ?_
  cases hb : scope.document.effective owner b with
  | error e => rfl
  | ok e =>
    obtain ⟨n, hnull⟩ := Document.exists_isNullable hb
    have hlift : ∀ {α : Type} (a : α), Traced.lift (.ok a) = pure a := fun _ => rfl
    simp only [hnull, hn n hnull, hlift, Except.map_ok, pure_bind, map_pure,
      propertyKind_overlay, propertyKind_of_isReferenceLike hr]
    rfl

variable {d : Document} {keyword : UnionKeyword} {nullFirst : Bool} {target : String}

theorem resolveProperty_union (hnode : node.isNullOnly = false) (hnull : null.isNullOnly) :
    resolveProperty ⟨d, []⟩ owner pointer key (.schema (o.union keyword nullFirst node null)) =
      (fun p => { o.apply p with
        nullable := true
        inlines := p.inlines.map (Inline.move
          ((pointer.push (.property key)).through (Overlay.member keyword nullFirst))) }) <$>
        resolveProperty ⟨d, []⟩ owner pointer key node := by
  have hunion : (o.union keyword nullFirst node null).nullableUnion? =
      some ⟨keyword, if nullFirst then 1 else 0, node⟩ := Overlay.nullableUnion_union hnode hnull
  refine resolveProperty_congr _ (fun _ => true) ?_ ?_
    (Overlay.isReferenceLike_union hnode hnull) ?_
  · rw [← typeNode_through rfl, typeNode_schema, Overlay.singleAllOfRef_union]
    simp only [Overlay.category_union hnode hnull]
    rfl
  · rw [Document.effective_schema, Overlay.singleAllOfRef_union]
    simp only [hunion, bind_pure_comp]
    cases keyword <;> rfl
  · intro n _
    rw [Document.isNullable, Overlay.singleAllOfRef_union]
    simp only [Schema.isNullable, hunion, Option.isSome_some, Bool.or_true]
    rfl

theorem resolveProperty_around :
    resolveProperty ⟨d, []⟩ owner pointer key (.schema (o.around target)) =
      o.apply <$> resolveProperty ⟨d, []⟩ owner pointer key (.ref target) := by
  have hself : (o.around target).isNullable = (o.nullable == some true) := by
    simp [Schema.isNullable, Overlay.around, Overlay.schema, Schema.empty, Schema.nullableUnion?,
      besideNull?]
  have hlike : (Node.schema (o.around target)).isReferenceLike =
      (Node.ref target).isReferenceLike := by
    rw [Node.isReferenceLike, Node.isReferenceLike]
    rfl
  refine resolveProperty_congr id (fun n => n || o.nullable == some true) ?_ ?_ hlike ?_
  · rw [Prod.map_id, id_map, typeNode_schema, typeNode_ref]
    rfl
  · rw [Document.effective_schema]
    exact bind_pure_comp _ _
  · intro n hn
    have href : d.isNullableRef owner target = .ok n := hn
    show (if (o.around target).isNullable then .ok true else d.isNullableRef owner target) = _
    rw [hself, href]
    cases o.nullable == some true <;> simp

/-- A union of a node with `null` declares the property of the node, but nullable, and lists the
schemas inside the node one step further in. An `allOf` of a reference declares the property of the
reference. Either has its own description and default instead if it states any, and is nullable if
it states that; one that states nothing leaves the property as it is. Errors and warnings are those
of the node. -/
theorem resolveProperty_wrapper (d : Document) (owner : String) (pointer : Pointer)
    (key : String) :
    (∀ (o : Overlay) keyword nullFirst node null, node.isNullOnly = false → null.isNullOnly = true →
      resolveProperty ⟨d, []⟩ owner pointer key (.schema (o.union keyword nullFirst node null)) =
        (fun p => { o.apply p with
          nullable := true
          inlines := p.inlines.map (Inline.move
            ((pointer.push (.property key)).through (Overlay.member keyword nullFirst))) }) <$>
          resolveProperty ⟨d, []⟩ owner pointer key node) ∧
    (∀ (o : Overlay) target,
      resolveProperty ⟨d, []⟩ owner pointer key (.schema (o.around target)) =
        o.apply <$> resolveProperty ⟨d, []⟩ owner pointer key (.ref target)) ∧
    ∀ p, (Overlay.mk none none none).apply p = p :=
  ⟨fun _ _ _ _ _ hnode hnull => resolveProperty_union hnode hnull,
    fun _ _ => resolveProperty_around, Overlay.apply_blank⟩

end Scope

end

def emptyDocument : Document := ⟨"3.0.3", default, [], List.nodup_nil⟩

/-- An object with an enum, and a description of it. -/
def levelHolder : Node :=
  .schema { Schema.empty with
    type := some (.single .object)
    description := some "a holder"
    properties := [("level", .schema { Schema.empty with
      type := some (.single .string)
      enum := [.str "low", .str "high"] })] }

theorem resolveProperty_wrapper_level_holder :
    levelHolder.isNullOnly = false ∧
    (Node.schema { Schema.empty with type := some (.single .null) }).isNullOnly = true ∧
    Scope.resolveProperty ⟨emptyDocument, []⟩ "S" (.ofComponent "S") "p"
        (.schema ((Overlay.mk (some "none or a holder") none none).union .anyOf true levelHolder
          (.schema { Schema.empty with type := some (.single .null) }))) =
      (fun p => { (Overlay.mk (some "none or a holder") none none).apply p with
        nullable := true
        inlines := p.inlines.map (Inline.move
          (((Pointer.ofComponent "S").push (.property "p")).through (.anyOf 1))) }) <$>
        Scope.resolveProperty ⟨emptyDocument, []⟩ "S" (.ofComponent "S") "p" levelHolder ∧
    (Scope.resolveProperty ⟨emptyDocument, []⟩ "S" (.ofComponent "S") "p"
      levelHolder).outcome.toOption.map (fun p => (p.nullable, p.inlines.map fun i => i.pointer)) =
        some (false, [(Pointer.ofComponent "S").push (.property "p")]) :=
  ⟨by cbv, by cbv, (Scope.resolveProperty_wrapper emptyDocument "S" (.ofComponent "S") "p").1 _
    .anyOf true levelHolder _ (by cbv) (by cbv), by cbv⟩

end SchemaModel
