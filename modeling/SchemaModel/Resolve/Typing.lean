import SchemaModel.Resolve.Alias
import SchemaModel.Resolve.Shape
import SchemaModel.Naming
import SchemaModel.Warning

/-!
The type of a value. Objects and enums are known by name; arrays, maps and scalars are spelled
out, also when they are components. Objects and enums that stand inside the value get a name
built from `base` and are listed on the way.

A walk over types goes on through arrays, maps, unions with `null` and references. It ends since
each step is to a smaller node or to a component that was not on the way, and a component that
was is an error.
-/

namespace SchemaModel

/-- A document and the names given to schemas whose own name was taken. -/
structure Scope where
  document : Document
  renames : List (Pointer × String)

namespace Scope

/-- The name of an inline schema: the one given to its position, or else the base name, made
distinct from all components. -/
def inlineName (scope : Scope) (base : String) (pointer : Pointer) : String :=
  match scope.renames.lookup pointer with
  | some name => name
  | none => Naming.fresh base scope.document.names

def typingCycle (path : List String) (name : String) : ModelError :=
  .unresolvable name (Reference.ofComponent name) (.cycle (path ++ [name]))

mutual

/-- The type of a node at a position, and the inline schemas it contains. References are resolved
in the name of `context`; `path` holds the components whose type is being found. -/
def typeNode (scope : Scope) (path : List String) (context base : String) (node : Node)
    (pointer : Pointer) : Traced (TypeRef × List Inline) :=
  match node with
  | .ref target => do
    let name ← Traced.lift (scope.document.resolveRef context target)
    let type ← componentType scope path name
    return (type, [])
  | .schema s =>
    match s.singleAllOfRef? with
    | some target => do
      let name ← Traced.lift (scope.document.resolveRef context target)
      let type ← componentType scope path name
      return (type, [])
    | none =>
      match _h : s.category with
      | .enum =>
        let name := scope.inlineName base pointer
        return (.named name, [⟨name, pointer, s⟩])
      | .object =>
        let name := scope.inlineName base pointer
        return (.named name, [⟨name, pointer, s⟩])
      | .nullableOf union =>
        typeNode scope path context base union.inner
          (pointer.push (union.keyword.step union.index))
      | .union => do
        Traced.warn (.untypedUnion base)
        return (.untyped, [])
      | .array none => return (.array .untyped, [])
      | .array (some items) => do
        let (type, inlines) ←
          typeNode scope path context (base ++ "Item") items (pointer.push .items)
        return (.array type, inlines)
      | .map none => return (.map .untyped, [])
      | .map (some values) => do
        let (type, inlines) ←
          typeNode scope path context (base ++ "Value") values (pointer.push .additional)
        return (.map type, inlines)
      | .primitive type => return (.primitive type, [])
termination_by (scope.document.unseen path, 1, sizeOf node)
decreasing_by
  · exact Prod.Lex.right _ (Prod.Lex.left _ _ (by omega))
  · exact Prod.Lex.right _ (Prod.Lex.left _ _ (by omega))
  · refine Prod.Lex.right _ (Prod.Lex.right _ ?_)
    have := Schema.category_nullableOf_lt _h
    simp
    omega
  · refine Prod.Lex.right _ (Prod.Lex.right _ ?_)
    have := Schema.category_array_lt _h
    simp
    omega
  · refine Prod.Lex.right _ (Prod.Lex.right _ ?_)
    have := Schema.category_map_lt _h
    simp
    omega

/-- The type of a value that refers to a component. -/
def componentType (scope : Scope) (path : List String) (name : String) : Traced TypeRef :=
  if _hp : name ∈ path then Traced.fail (typingCycle path name)
  else match _h : scope.document.definition? name with
    | none => Traced.fail (Document.missing name)
    | some s => namedType scope (path ++ [name]) name s (.ofComponent name)
termination_by (scope.document.unseen path, 0, 0)
decreasing_by
  exact Prod.Lex.left _ _
    (scope.document.unseen_append_lt (Document.mem_names_of_definition _h) _hp)

/-- The type that a component's schema stands for in the place of a reference to it. -/
def namedType (scope : Scope) (path : List String) (name : String) (s : Schema)
    (pointer : Pointer) : Traced TypeRef :=
  match _h : s.category with
  | .enum => return .named name
  | .object => return .named name
  | .union => return .untyped
  | .nullableOf ⟨keyword, index, .schema inner⟩ =>
    namedType scope path name inner (pointer.push (keyword.step index))
  | .nullableOf ⟨_, _, .ref target⟩ => do
    let name ← Traced.lift (scope.document.resolveRef name target)
    componentType scope path name
  | .array none => return .array .untyped
  | .array (some items) => do
    let (type, _) ← typeNode scope path name (name ++ "Item") items (pointer.push .items)
    return .array type
  | .map none => return .map .untyped
  | .map (some values) => do
    let (type, _) ← typeNode scope path name (name ++ "Value") values (pointer.push .additional)
    return .map type
  | .primitive type => return .primitive type
termination_by (scope.document.unseen path, 1, sizeOf s)
decreasing_by
  · refine Prod.Lex.right _ (Prod.Lex.right _ ?_)
    have := Schema.category_nullableOf_lt _h
    simp at this
    omega
  · exact Prod.Lex.right _ (Prod.Lex.left _ _ (by omega))
  · refine Prod.Lex.right _ (Prod.Lex.right _ ?_)
    exact Schema.category_array_lt _h
  · refine Prod.Lex.right _ (Prod.Lex.right _ ?_)
    exact Schema.category_map_lt _h

end

end Scope

end SchemaModel
