import SchemaModel.Resolve.Memory
import SchemaModel.Resolve.Outline

/-!
The walks of a resolver, with memory. `Scope.typeNode`, `Scope.mergeSchema` and `Scope.outline`
say what the type of a node, the merged schema at a position and the outline of a schema are, in
no regard of what was met before. Here the same is found with the memory of all earlier walks:
what was merged once is not merged again, and the way is looked up where these are handed it.

Only what goes further or needs the memory is written out. One step of `fuel` goes to another
component; none is on the way twice, so their number bounds the steps.
-/

namespace SchemaModel

namespace Scope

/-- A way along components has fewer steps than this. -/
def depth (scope : Scope) : Nat := scope.document.names.length + 1

mutual

/-- `typeNode` with memory. -/
def typeNodeM (scope : Scope) (fuel : Nat) (context base : String) (node : Node)
    (pointer : Pointer) : Recall (TypeRef × List Inline) :=
  match node with
  | .ref target => do
    let name ← Recall.trace (Traced.lift (scope.document.resolveRef context target))
    let type ← componentTypeM scope fuel name
    return (type, [])
  | .schema s =>
    match s.singleAllOfRef? with
    | some target => do
      let name ← Recall.trace (Traced.lift (scope.document.resolveRef context target))
      let type ← componentTypeM scope fuel name
      return (type, [])
    | none =>
      match _h : s.category with
      | .nullableOf union =>
        typeNodeM scope fuel context base union.inner
          (pointer.push (union.keyword.step union.index))
      | .array (some items) => do
        let (type, inlines) ←
          typeNodeM scope fuel context (base ++ "Item") items (pointer.push .items)
        return (.array type, inlines)
      | .map (some values) => do
        let (type, inlines) ←
          typeNodeM scope fuel context (base ++ "Value") values (pointer.push .additional)
        return (.map type, inlines)
      | _ => Recall.trace (scope.typeNode [] context base (.schema s) pointer)
termination_by (fuel, 1, sizeOf node)
decreasing_by
  · exact Prod.Lex.right _ (Prod.Lex.left _ _ (by omega))
  · exact Prod.Lex.right _ (Prod.Lex.left _ _ (by omega))
  · refine Prod.Lex.right _ (Prod.Lex.right _ ?_)
    have := Schema.category_nullableOf_lt _h
    simp
    omega
  · refine Prod.Lex.right _ (Prod.Lex.right _ ?_)
    have := Schema.category_array_lt _h
    simp
    omega
  · refine Prod.Lex.right _ (Prod.Lex.right _ ?_)
    have := Schema.category_map_lt _h
    simp
    omega

/-- `componentType` with memory. -/
def componentTypeM (scope : Scope) (fuel : Nat) (name : String) : Recall TypeRef :=
  match fuel with
  | 0 => Recall.stop .unfinished
  | fuel + 1 => do
    let m ← Recall.get
    if name ∈ m.typing then Recall.stop (.failed (typingCycle m.typing name))
    else match scope.document.definition? name with
      | none => Recall.stop (.failed (Document.missing name))
      | some s => Recall.whileTyping name (namedTypeM scope fuel name s (.ofComponent name))
termination_by (fuel, 0, 0)
decreasing_by
  exact Prod.Lex.left _ _ (by omega)

/-- `namedType` with memory. -/
def namedTypeM (scope : Scope) (fuel : Nat) (name : String) (s : Schema) (pointer : Pointer) :
    Recall TypeRef :=
  match _h : s.category with
  | .nullableOf ⟨keyword, index, .schema inner⟩ =>
    namedTypeM scope fuel name inner (pointer.push (keyword.step index))
  | .nullableOf ⟨_, _, .ref target⟩ => do
    let name ← Recall.trace (Traced.lift (scope.document.resolveRef name target))
    componentTypeM scope fuel name
  | .array (some items) => do
    let (type, _) ← typeNodeM scope fuel name (name ++ "Item") items (pointer.push .items)
    return .array type
  | .map (some values) => do
    let (type, _) ← typeNodeM scope fuel name (name ++ "Value") values (pointer.push .additional)
    return .map type
  | _ => Recall.trace (scope.namedType [] name s pointer)
termination_by (fuel, 1, sizeOf s)
decreasing_by
  · refine Prod.Lex.right _ (Prod.Lex.right _ ?_)
    have := Schema.category_nullableOf_lt _h
    simp at this
    omega
  · exact Prod.Lex.right _ (Prod.Lex.left _ _ (by omega))
  · refine Prod.Lex.right _ (Prod.Lex.right _ ?_)
    exact Schema.category_array_lt _h
  · refine Prod.Lex.right _ (Prod.Lex.right _ ?_)
    exact Schema.category_map_lt _h

end

variable [Libraries]

/-- `resolveProperty` with memory. -/
def resolvePropertyM (scope : Scope) (owner : String) (pointer : Pointer) (key : String)
    (node : Node) : Recall ResolvedProperty := do
  let (type, inlines) ← scope.typeNodeM scope.depth owner (Naming.inlineName owner key) node
    (pointer.push (.property key))
  let effective ← Recall.trace (Traced.lift (scope.document.effective owner node))
  let kind ← Recall.trace (propertyKind owner key node type effective)
  let nullable ← Recall.trace (Traced.lift (scope.document.isNullable owner node))
  return ⟨key, type, kind, nullable, effective.default, effective.description, inlines⟩

/-- `additionalType` with memory. -/
def additionalTypeM (scope : Scope) (name : String) (pointer : Pointer) :
    Additional → Recall (Option AdditionalType)
  | .values node => do
    let (type, inlines) ←
      scope.typeNodeM scope.depth name (name ++ "Value") node (pointer.push .additional)
    return some ⟨type, inlines⟩
  | additional => Recall.trace (scope.additionalType name pointer additional)

/-- `declareOwn` with memory. -/
def declareOwnM (scope : Scope) (name : String) (pointer : Pointer) (o : ObjectShape) :
    List (String × Node) → Recall ObjectShape
  | [] => return o
  | (key, node) :: rest => do
    let p ← scope.resolvePropertyM name pointer key node
    let o ← Recall.trace (Traced.lift (o.declare name p))
    declareOwnM scope name pointer o rest

/-- `mergeOwn` with memory. -/
def mergeOwnM (scope : Scope) (name : String) (pointer : Pointer) (s : Schema)
    (o : ObjectShape) : Recall ObjectShape := do
  let o ← scope.declareOwnM name pointer o s.properties
  let o := { o with required := NameSet.addAll o.required s.required }
  let additional ← match s.additional with
    | none => pure o.additional
    | some additional => scope.additionalTypeM name pointer additional
  return { o with additional, discriminator := s.discriminator.orElse fun _ => o.discriminator }

mutual

/-- `mergeSchema` with memory; the schema itself is on the way. -/
def mergeSchemaM (scope : Scope) (fuel : Nat) (name : String) (pointer : Pointer) (s : Schema) :
    Recall ObjectShape := do
  let o ← mergeBranchesM scope fuel name pointer 0 s.allOf .empty
  scope.mergeOwnM name pointer s o
termination_by (fuel, 1, sizeOf s)
decreasing_by
  exact Prod.Lex.right _ (Prod.Lex.right _ (Schema.sizeOf_allOf_lt s))

/-- `mergeBranches` with memory; each branch is merged once. -/
def mergeBranchesM (scope : Scope) (fuel : Nat) (name : String) (pointer : Pointer)
    (index : Nat) (branches : List Node) (o : ObjectShape) : Recall ObjectShape :=
  match branches with
  | [] => return o
  | .ref target :: rest => do
    let parent ← Recall.trace (Traced.lift (scope.document.resolveRef name target))
    let inherited ← mergeComponentM scope fuel parent
    let o ← Recall.trace (Traced.lift (o.merge name inherited false))
    mergeBranchesM scope fuel name pointer (index + 1) rest
      { o with allOfRefs := o.allOfRefs ++ [parent] }
  | .schema s :: rest => do
    let inner := pointer.push (.allOf index)
    let inherited ← Recall.once inner
      (Recall.whileMerging inner name (mergeSchemaM scope fuel name inner s))
    let o ← Recall.trace (Traced.lift (o.merge name inherited true))
    mergeBranchesM scope fuel name pointer (index + 1) rest
      { o with allOfRefs := o.allOfRefs ++ inherited.allOfRefs }
termination_by (fuel, 1, sizeOf branches)
decreasing_by
  · exact Prod.Lex.right _ (Prod.Lex.left _ _ (by omega))
  · refine Prod.Lex.right _ (Prod.Lex.right _ ?_)
    simp only [List.cons.sizeOf_spec]
    omega
  · refine Prod.Lex.right _ (Prod.Lex.right _ ?_)
    simp only [List.cons.sizeOf_spec, Node.schema.sizeOf_spec]
    omega
  · refine Prod.Lex.right _ (Prod.Lex.right _ ?_)
    simp only [List.cons.sizeOf_spec]
    omega

/-- `mergeComponent` with memory. What is remembered is not on the way, so it is looked up before
a cycle is looked for. -/
def mergeComponentM (scope : Scope) (fuel : Nat) (name : String) : Recall ObjectShape :=
  match fuel with
  | 0 => Recall.stop .unfinished
  | fuel + 1 => Recall.once (.ofComponent name) do
    let m ← Recall.get
    if name ∈ m.merging.components then Recall.stop (.failed (mergeCycle m.merging name))
    else match scope.document.definition? name with
      | none => Recall.stop (.failed (Document.missing name))
      | some s =>
        Recall.whileMerging (.ofComponent name) name
          (mergeSchemaM scope fuel name (.ofComponent name) s)
termination_by (fuel, 0, 0)
decreasing_by
  exact Prod.Lex.left _ _ (by omega)

end

/-- `objectShape` with memory. -/
def objectShapeM (scope : Scope) (name : String) (pointer : Pointer) (s : Schema) :
    Recall ObjectShape := do
  let o ← Recall.once pointer
    (Recall.whileMerging pointer name (scope.mergeSchemaM scope.depth name pointer s))
  if o.discriminator.isNone then return o
  else
    let members ← Recall.trace (scope.unionMembers name 0 o.unionMembers (s.oneOf ++ s.anyOf))
    return { o with unionMembers := members }

/-- `outline` with memory. -/
def outlineM (scope : Scope) (name : String) (pointer : Pointer) (s : Schema) : Recall Outline :=
  match _h : s.category with
  | .nullableOf ⟨keyword, index, .schema inner⟩ =>
    outlineM scope name (pointer.push (keyword.step index)) inner
  | .object => do
    let o ← scope.objectShapeM name pointer s
    return .shape (.object o) o.inlines
  | .array (some items) => do
    let (type, inlines) ←
      scope.typeNodeM scope.depth name (name ++ "Item") items (pointer.push .items)
    return .shape (.array type) inlines
  | .map (some values) => do
    let (type, inlines) ←
      scope.typeNodeM scope.depth name (name ++ "Value") values (pointer.push .additional)
    return .shape (.map type) inlines
  | _ => Recall.trace (scope.outline name pointer s)
termination_by sizeOf s
decreasing_by
  have := Schema.category_nullableOf_lt _h
  simp at this
  omega

end Scope

end SchemaModel
