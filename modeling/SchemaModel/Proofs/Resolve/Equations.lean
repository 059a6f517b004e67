import SchemaModel.Resolve.Outline

/-!
The equations of the walks over nodes. The definitions carry in their matches what shows that
they end; here each is one plain case analysis.
-/

namespace SchemaModel

namespace Document

theorem followFrom_eq (d : Document) (context : String) (chain : List String) (current : String) :
    d.followFrom context chain current =
      match d.find? current with
      | none => .error (.unresolvable context (Reference.ofComponent current) .dangling)
      | some node =>
        match node.aliasTarget? with
        | none => .ok current
        | some path =>
          match Reference.component? path with
          | none => .error (.unresolvable current path .external)
          | some next =>
            if next ∈ chain then .error (.unresolvable context path (.cycle (chain ++ [next])))
            else d.followFrom context (chain ++ [next]) next := by
  rw [followFrom]
  split
  · rename_i h
    rw [h]
  · rename_i h
    rw [h]
    rfl

theorem effective_schema (d : Document) (context : String) (s : Schema) :
    d.effective context (.schema s) =
      match s.singleAllOfRef? with
      | some target => do
        let inner ← d.effective context (.ref target)
        return effective.overlay s inner
      | none =>
        match s.nullableUnion? with
        | some union => do
          let inner ← d.effective context union.inner
          return effective.overlay s inner
        | none => return s := by
  rw [effective]
  cases s.singleAllOfRef? with
  | some target =>
    simp only [effective, bind_assoc, pure_bind]
  | none =>
    dsimp only
    split <;> rename_i h <;> simp only [h]

theorem effective_own {d : Document} {context : String} {s : Schema}
    (hw : s.singleAllOfRef? = none) (hu : s.nullableUnion? = none) :
    d.effective context (.schema s) = .ok s := by
  simp only [effective_schema, hw, hu]
  rfl

end Document

namespace Scope

theorem typeNode_ref (scope : Scope) (path : List String) (context base target : String)
    (pointer : Pointer) :
    scope.typeNode path context base (.ref target) pointer = (do
      let name ← Traced.lift (scope.document.resolveRef context target)
      let type ← scope.componentType path name
      return (type, [])) := by
  rw [typeNode]

theorem typeNode_schema (scope : Scope) (path : List String) (context base : String) (s : Schema)
    (pointer : Pointer) :
    scope.typeNode path context base (.schema s) pointer =
      match s.singleAllOfRef? with
      | some target => do
        let name ← Traced.lift (scope.document.resolveRef context target)
        let type ← scope.componentType path name
        return (type, [])
      | none =>
        match s.category with
        | .enum =>
          return (.named (scope.inlineName base pointer),
            [⟨scope.inlineName base pointer, pointer, s⟩])
        | .object =>
          return (.named (scope.inlineName base pointer),
            [⟨scope.inlineName base pointer, pointer, s⟩])
        | .nullableOf union =>
          scope.typeNode path context base union.inner
            (pointer.push (union.keyword.step union.index))
        | .union => do
          Traced.warn (.untypedUnion base)
          return (.untyped, [])
        | .array none => return (.array .untyped, [])
        | .array (some items) => do
          let (type, inlines) ←
            scope.typeNode path context (base ++ "Item") items (pointer.push .items)
          return (.array type, inlines)
        | .map none => return (.map .untyped, [])
        | .map (some values) => do
          let (type, inlines) ←
            scope.typeNode path context (base ++ "Value") values (pointer.push .additional)
          return (.map type, inlines)
        | .primitive type => return (.primitive type, []) := by
  rw [typeNode]
  cases s.singleAllOfRef? with
  | some target => rfl
  | none =>
    dsimp only
    split <;> rename_i h <;> simp only [h]

theorem componentType_eq (scope : Scope) (path : List String) (name : String) :
    scope.componentType path name =
      if name ∈ path then Traced.fail (typingCycle path name)
      else match scope.document.definition? name with
        | none => Traced.fail (Document.missing name)
        | some s => scope.namedType (path ++ [name]) name s (.ofComponent name) := by
  rw [componentType]
  split
  · rfl
  · split <;> rename_i h <;> simp only [h]

theorem namedType_eq (scope : Scope) (path : List String) (name : String) (s : Schema)
    (pointer : Pointer) :
    scope.namedType path name s pointer =
      match s.category with
      | .enum => return .named name
      | .object => return .named name
      | .union => return .untyped
      | .nullableOf ⟨keyword, index, .schema inner⟩ =>
        scope.namedType path name inner (pointer.push (keyword.step index))
      | .nullableOf ⟨_, _, .ref target⟩ => do
        let name ← Traced.lift (scope.document.resolveRef name target)
        scope.componentType path name
      | .array none => return .array .untyped
      | .array (some items) => do
        let (type, _) ← scope.typeNode path name (name ++ "Item") items (pointer.push .items)
        return .array type
      | .map none => return .map .untyped
      | .map (some values) => do
        let (type, _) ←
          scope.typeNode path name (name ++ "Value") values (pointer.push .additional)
        return .map type
      | .primitive type => return .primitive type := by
  rw [namedType]
  split <;> rename_i h <;> simp only [h]

variable [Libraries]

theorem mergeComponent_eq (scope : Scope) (path : MergePath) (name : String) :
    scope.mergeComponent path name =
      if name ∈ path.components then Traced.fail (mergeCycle path name)
      else match scope.document.definition? name with
        | none => Traced.fail (Document.missing name)
        | some s =>
          scope.mergeSchema (path ++ [(.ofComponent name, name)]) name (.ofComponent name) s := by
  rw [mergeComponent]
  split
  · rfl
  · split <;> rename_i h <;> simp only [h]

theorem outline_eq (scope : Scope) (name : String) (pointer : Pointer) (s : Schema) :
    scope.outline name pointer s =
      match s.category with
      | .enum => return .shape (.enum s.enumDescriptor) []
      | .nullableOf ⟨keyword, index, .schema inner⟩ =>
        scope.outline name (pointer.push (keyword.step index)) inner
      | .nullableOf ⟨_, _, .ref target⟩ => do
        let component ← Traced.lift (scope.document.resolveRef name target)
        return .sameAs component
      | .union => do
        Traced.warn (.untypedUnion name)
        return .shape (.primitive .untyped) []
      | .object => do
        let o ← scope.objectShape name pointer s
        return .shape (.object o) o.inlines
      | .array none => return .shape (.array .untyped) []
      | .array (some items) => do
        let (type, inlines) ←
          scope.typeNode [] name (name ++ "Item") items (pointer.push .items)
        return .shape (.array type) inlines
      | .map none => return .shape (.map .untyped) []
      | .map (some values) => do
        let (type, inlines) ←
          scope.typeNode [] name (name ++ "Value") values (pointer.push .additional)
        return .shape (.map type) inlines
      | .primitive type => return .shape (.primitive type) [] := by
  rw [outline]
  split <;> rename_i h <;> simp only [h]

end Scope

end SchemaModel
