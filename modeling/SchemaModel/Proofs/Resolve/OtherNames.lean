import SchemaModel.Proofs.Resolve.Contents
import SchemaModel.Proofs.Resolve.Reference

/-!
What is found under some names is found under all. Names are made for the schemas inside others,
and a type is one of them or is spelled out; but whether there is a type does not depend on them
(`Scope.typing_rename`), nor does whether a property can be resolved.
-/

namespace SchemaModel

namespace Document

variable {d : Document} {context other : String}

theorem effective_context {node : Node} {e : Schema} (h : d.effective context node = .ok e) :
    d.effective other node = .ok e := by
  induction hsize : sizeOf node using Nat.strongRecOn generalizing node e with
  | ind n ih =>
    have href : ∀ target e, d.effective context (.ref target) = .ok e →
        d.effective other (.ref target) = .ok e := by
      intro target e h
      rw [effective] at h ⊢
      obtain ⟨name, hr, h⟩ := bind_eq_ok_iff.1 h
      exact bind_eq_ok_iff.2 ⟨name, resolveRef_context hr, h⟩
    cases node with
    | ref target => exact href target e h
    | schema s =>
      rw [effective_schema] at h ⊢
      cases hw : s.singleAllOfRef? with
      | some target =>
        simp only [hw] at h ⊢
        obtain ⟨inner, hi, h⟩ := bind_eq_ok_iff.1 h
        exact bind_eq_ok_iff.2 ⟨inner, href target inner hi, h⟩
      | none =>
        simp only [hw] at h ⊢
        cases hu : s.nullableUnion? with
        | none =>
          simp only [hu] at h ⊢
          exact h
        | some union =>
          simp only [hu] at h ⊢
          obtain ⟨inner, hi, h⟩ := bind_eq_ok_iff.1 h
          have hlt := Schema.nullableUnion_lt hu
          rw [Node.schema.sizeOf_spec] at hsize
          exact bind_eq_ok_iff.2 ⟨inner, ih _ (by omega) hi rfl, h⟩

theorem isNullable_context {node : Node} {nullable : Bool}
    (h : d.isNullable context node = .ok nullable) : d.isNullable other node = .ok nullable := by
  have href : ∀ target, d.isNullableRef context target = .ok nullable →
      d.isNullableRef other target = .ok nullable := by
    intro target h
    unfold isNullableRef at h ⊢
    obtain ⟨name, hr, h⟩ := bind_eq_ok_iff.1 h
    exact bind_eq_ok_iff.2 ⟨name, resolveRef_context hr, h⟩
  cases node with
  | ref target => exact href target h
  | schema s =>
    unfold isNullable at h ⊢
    cases hw : s.singleAllOfRef? with
    | none =>
      simp only [hw] at h ⊢
      exact h
    | some target =>
      simp only [hw] at h ⊢
      split at h
      · rw [if_pos ‹_›]
        exact h
      · rw [if_neg ‹_›]
        exact href target h

end Document

namespace Scope

variable {scope scope' : Scope}

/-- Whether there is a type, along the three functions that call each other. -/
theorem typing_rename (hd : scope'.document = scope.document) :
    (∀ path context base node pointer v,
      (scope.typeNode path context base node pointer).outcome = .ok v → ∀ context' base',
        ∃ v', (scope'.typeNode path context' base' node pointer).outcome = .ok v') ∧
    (∀ path name v, (scope.componentType path name).outcome = .ok v →
      ∃ v', (scope'.componentType path name).outcome = .ok v') ∧
    ∀ path name s pointer v, (scope.namedType path name s pointer).outcome = .ok v →
      ∃ v', (scope'.namedType path name s pointer).outcome = .ok v' := by
  apply typeNode.mutual_induct scope
  case case1 =>
    intro path context base pointer target ih v h context' base'
    simp only [typeNode_ref, Traced.outcome_bind_eq_ok_iff, Traced.outcome_lift, hd] at h ⊢
    obtain ⟨name, hr, t, ht, -⟩ := h
    obtain ⟨t', ht'⟩ := ih name t ht
    exact ⟨_, name, Document.resolveRef_context hr, t', ht', rfl⟩
  case case2 =>
    intro path context base pointer s target hs ih v h context' base'
    simp only [typeNode_schema, hs, Traced.outcome_bind_eq_ok_iff, Traced.outcome_lift, hd] at h ⊢
    obtain ⟨name, hr, t, ht, -⟩ := h
    obtain ⟨t', ht'⟩ := ih name t ht
    exact ⟨_, name, Document.resolveRef_context hr, t', ht', rfl⟩
  case case5 =>
    intro path context base pointer s hs union hc ih v h context' base'
    simp only [typeNode_schema, hs, hc] at h ⊢
    exact ih v h context' base'
  case case8 | case10 =>
    intro path context base pointer s hs inner hc ih v h context' base'
    simp only [typeNode_schema, hs, hc, Traced.outcome_bind_eq_ok_iff] at h ⊢
    obtain ⟨t, ht, -⟩ := h
    obtain ⟨t', ht'⟩ := ih t ht context' (base' ++ _)
    exact ⟨_, t', ht', rfl⟩
  -- the other nodes always have a type
  case case3 | case4 | case6 | case7 | case9 =>
    intro path context base pointer s hs hc v h context' base'
    simp only [typeNode_schema, hs, hc]
    exact ⟨_, rfl⟩
  case case11 =>
    intro path context base pointer s hs type hc v h context' base'
    simp only [typeNode_schema, hs, hc]
    exact ⟨_, rfl⟩
  case case12 =>
    intro path name hm v h
    rw [componentType_eq, if_pos hm] at h
    cases h
  case case13 =>
    intro path name hm hn v h
    rw [componentType_eq, if_neg hm, hn] at h
    cases h
  case case14 =>
    intro path name hm s hs ih v h
    rw [componentType_eq, if_neg hm, hs] at h
    rw [componentType_eq, if_neg hm, hd, hs]
    exact ih v h
  case case18 =>
    intro path name s pointer keyword index inner hc ih v h
    rw [namedType_eq, hc] at h ⊢
    exact ih v h
  case case19 =>
    intro path name s pointer keyword index target hc ih v h
    simp only [namedType_eq, hc, Traced.outcome_bind_eq_ok_iff, Traced.outcome_lift, hd] at h ⊢
    obtain ⟨other, hr, h⟩ := h
    obtain ⟨v', hv'⟩ := ih other v h
    exact ⟨v', other, hr, hv'⟩
  case case21 | case23 =>
    intro path name s pointer inner hc ih v h
    simp only [namedType_eq, hc, Traced.outcome_bind_eq_ok_iff] at h ⊢
    obtain ⟨t, ht, -⟩ := h
    obtain ⟨t', ht'⟩ := ih t ht name (name ++ _)
    exact ⟨_, t', ht', rfl⟩
  case case15 | case16 | case17 | case20 | case22 =>
    intro path name s pointer hc v h
    simp only [namedType_eq, hc]
    exact ⟨_, rfl⟩
  case case24 =>
    intro path name s pointer type hc v h
    simp only [namedType_eq, hc]
    exact ⟨_, rfl⟩

variable {name name' : String} {pointer : Pointer}

theorem resolveProperty_rename [Libraries] (hd : scope'.document = scope.document) {key : String}
    {node : Node} {p : ResolvedProperty}
    (h : (scope.resolveProperty name pointer key node).outcome = .ok p) :
    ∃ p', (scope'.resolveProperty name' pointer key node).outcome = .ok p' := by
  obtain ⟨e, -, ht, he, -, hn, -⟩ := resolveProperty_eq_ok h
  obtain ⟨⟨type, inlines⟩, ht'⟩ :=
    (typing_rename hd).1 _ _ _ _ _ _ ht name' (Naming.inlineName name' key)
  obtain ⟨kind, hkind⟩ := exists_propertyKind name' key node type e
  rw [← hd] at he hn
  unfold resolveProperty
  simp only [Traced.outcome_bind_eq_ok_iff, Traced.outcome_lift]
  exact ⟨_, _, ht', e, Document.effective_context he, kind, hkind, _,
    Document.isNullable_context hn, rfl⟩

theorem additionalType_rename (hd : scope'.document = scope.document) {additional : Additional}
    {a : Option AdditionalType}
    (h : (scope.additionalType name pointer additional).outcome = .ok a) :
    ∃ a', (scope'.additionalType name' pointer additional).outcome = .ok a' := by
  cases additional with
  | flag allowed => cases allowed <;> exact ⟨_, rfl⟩
  | values node =>
    unfold additionalType at h ⊢
    simp only [Traced.outcome_bind_eq_ok_iff] at h ⊢
    obtain ⟨t, ht, -⟩ := h
    obtain ⟨t', ht'⟩ := (typing_rename hd).1 _ _ _ _ _ _ ht name' (name' ++ "Value")
    exact ⟨_, t', ht', rfl⟩

theorem unionMembers_rename (hd : scope'.document = scope.document) {index index' : Nat}
    {members members' found : List String} {nodes : List Node}
    (h : (scope.unionMembers name index members nodes).outcome = .ok found) :
    ∃ found', (scope'.unionMembers name' index' members' nodes).outcome = .ok found' := by
  induction nodes generalizing index index' members members' with
  | nil => exact ⟨members', rfl⟩
  | cons node rest ih =>
    cases node with
    | ref target =>
      simp only [unionMembers, Traced.outcome_bind_eq_ok_iff, Traced.outcome_lift, hd] at h ⊢
      obtain ⟨member, hr, h⟩ := h
      obtain ⟨found', hfound⟩ := ih h
      exact ⟨found', member, Document.resolveRef_context hr, hfound⟩
    | schema s =>
      simp only [unionMembers, Traced.outcome_bind_eq_ok_iff] at h ⊢
      obtain ⟨-, -, h⟩ := h
      obtain ⟨found', hfound⟩ := ih h
      exact ⟨found', (), rfl, hfound⟩

end Scope

end SchemaModel
