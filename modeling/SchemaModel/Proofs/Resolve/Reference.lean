import SchemaModel.Proofs.Resolve.Merge

/-!
A property that is declared by a reference. Its type is that of the component to which the
reference leads, and its keywords are read there; the reference itself only says whether the
component that it names, which may be an alias, admits null (`Scope.resolveProperty_ref`).
-/

namespace SchemaModel

/-- The keywords that a reference reads of a component: those of the component, or those of the
alternative beside `null`. -/
def Schema.read (s : Schema) : Schema :=
  match s.nullableUnion? with
  | some ⟨_, _, .schema inner⟩ => inner
  | _ => s

namespace Document

/-- Whether the component that a reference names admits null, be it an alias or not. -/
def namesNullable (d : Document) (target : String) : Bool :=
  match (Reference.component? target).bind d.find? with
  | some node => node.isNullable
  | none => false

variable {d : Document} {context target name : String} {s : Schema}

theorem effective_ref (hr : d.resolveRef context target = .ok name)
    (hs : d.definition? name = some s) : d.effective context (.ref target) = .ok s.read := by
  have hd : d.definition name = .ok s := definition_eq_ok_iff.2 hs
  rw [effective]
  exact bind_eq_ok_iff.2 ⟨name, hr, bind_eq_ok_iff.2 ⟨s, hd, rfl⟩⟩

theorem isNullable_ref (hr : d.resolveRef context target = .ok name)
    (hs : d.definition? name = some s) :
    d.isNullable context (.ref target) = .ok (d.namesNullable target || s.isNullable) := by
  have hd : d.definition name = .ok s := definition_eq_ok_iff.2 hs
  rw [isNullable, isNullableRef]
  exact bind_eq_ok_iff.2 ⟨name, hr, bind_eq_ok_iff.2 ⟨s, hd, rfl⟩⟩

/-- Where the keywords of a node are found, it is known whether it may be null. -/
theorem exists_isNullable {node : Node} {e : Schema} (h : d.effective context node = .ok e) :
    ∃ nullable, d.isNullable context node = .ok nullable := by
  have href : ∀ {target e}, d.effective context (.ref target) = .ok e →
      ∃ nullable, d.isNullableRef context target = .ok nullable := by
    intro target e h
    rw [effective] at h
    obtain ⟨name, hr, h⟩ := bind_eq_ok_iff.1 h
    obtain ⟨s, hs, -⟩ := bind_eq_ok_iff.1 h
    exact ⟨_, isNullable_ref hr (definition_eq_ok_iff.1 hs)⟩
  cases node with
  | ref target => exact href h
  | schema s =>
    rw [effective_schema] at h
    rw [isNullable]
    cases hw : s.singleAllOfRef? with
    | none => exact ⟨_, rfl⟩
    | some target =>
      simp only [hw] at h ⊢
      obtain ⟨inner, hinner, -⟩ := bind_eq_ok_iff.1 h
      by_cases hn : s.isNullable
      · rw [if_pos hn]
        exact ⟨true, rfl⟩
      · rw [if_neg hn]
        exact href hinner

end Document

variable [Libraries]

/-- A pattern that is none gives a warning, but no error. -/
theorem exists_fieldConstraints (owner key : String) (type : Primitive) (s : Schema) :
    ∃ constraints, (fieldConstraints owner key type s).outcome = .ok constraints := by
  unfold fieldConstraints
  cases (if type.isTextual then s.pattern else none) with
  | none => exact ⟨_, rfl⟩
  | some pattern =>
    dsimp only
    cases Pattern.error? pattern with
    | none => exact ⟨_, rfl⟩
    | some error => exact ⟨_, rfl⟩

namespace Scope

variable {scope : Scope} {owner key target name : String} {pointer : Pointer} {s : Schema}

theorem propertyKind_of_isReferenceLike {a b : Node} (h : a.isReferenceLike = b.isReferenceLike)
    (owner key : String) (type : TypeRef) (effective : Schema) :
    propertyKind owner key a type effective = propertyKind owner key b type effective := by
  cases type with
  | named name => simp only [propertyKind, h]
  | array items => rfl
  | map values => rfl
  | primitive type => rfl

/-- To the kind of a property all references are alike. -/
theorem propertyKind_ref (owner key target other : String) (type : TypeRef) (effective : Schema) :
    propertyKind owner key (.ref target) type effective =
      propertyKind owner key (.ref other) type effective :=
  propertyKind_of_isReferenceLike (by rw [Node.isReferenceLike, Node.isReferenceLike]) ..

theorem exists_propertyKind (owner key : String) (node : Node) (type : TypeRef)
    (effective : Schema) :
    ∃ kind, (propertyKind owner key node type effective).outcome = .ok kind := by
  unfold propertyKind
  cases type with
  | named name =>
    dsimp only
    by_cases he : effective.hasEnumValues
    · rw [if_pos he]
      exact ⟨_, rfl⟩
    · rw [if_neg he]
      by_cases hn : node.isReferenceLike
      · rw [if_pos hn]
        exact ⟨_, rfl⟩
      · rw [if_neg hn]
        exact ⟨_, rfl⟩
  | array items => exact ⟨_, rfl⟩
  | map values => exact ⟨_, rfl⟩
  | primitive type =>
    obtain ⟨constraints, hc⟩ := exists_fieldConstraints owner key type effective
    exact ⟨.field constraints, Traced.outcome_bind_eq_ok_iff.2 ⟨constraints, hc, rfl⟩⟩

/-- What a reference declares, read off the component to which it leads. -/
theorem resolveProperty_ref {type : TypeRef} {kind : PropertyKind}
    (hr : scope.document.resolveRef owner target = .ok name)
    (hs : scope.document.definition? name = some s)
    (ht : (scope.componentType [] name).outcome = .ok type)
    (hk : (propertyKind owner key (.ref target) type s.read).outcome = .ok kind) :
    (scope.resolveProperty owner pointer key (.ref target)).outcome =
      .ok ⟨key, type, kind, scope.document.namesNullable target || s.isNullable,
        s.read.default, s.read.description, []⟩ := by
  have htype : (scope.typeNode [] owner (Naming.inlineName owner key) (.ref target)
      (pointer.push (.property key))).outcome = .ok (type, []) := by
    simp only [typeNode_ref, Traced.outcome_bind_eq_ok_iff, Traced.outcome_lift]
    exact ⟨name, hr, type, ht, rfl⟩
  unfold resolveProperty
  simp only [Traced.outcome_bind_eq_ok_iff, Traced.outcome_lift]
  exact ⟨(type, []), htype, s.read, Document.effective_ref hr hs, kind, hk, _,
    Document.isNullable_ref hr hs, rfl⟩

end Scope

end SchemaModel
