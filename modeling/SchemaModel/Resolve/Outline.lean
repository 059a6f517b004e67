import SchemaModel.Resolve.Flatten

/-!
The shape of one schema, found without resolving other components. Only a union of `null` and a
reference deep inside another union with `null` has no shape of its own; its outline names the
component that has it.
-/

namespace SchemaModel

variable [Libraries]

namespace Schema

/-- The text of a value: a string itself, anything else as JSON. -/
def valueText : Json → String
  | .str text => text
  | v => v.compress

/-- Members for the distinct values that are not null, with distinct constants. -/
def enumMembers (members : List EnumMember) : List Json → List EnumMember
  | [] => members
  | v :: rest =>
    if v.isNull || members.any (fun m => m.value.same v) then enumMembers members rest
    else
      let constant :=
        Naming.fresh (Naming.enumConstant (valueText v)) (members.map EnumMember.constant)
      enumMembers (members ++ [⟨v, constant⟩]) rest

def enumDescriptor (s : Schema) : EnumDescriptor :=
  let base := if s.primitiveType = .untyped then .string else s.primitiveType
  ⟨base, enumMembers [] s.enum⟩

end Schema

/-- A shape with the inline schemas to resolve after it, or the component whose shape it is. -/
inductive Outline where
  | shape (shape : Shape) (inlines : List Inline)
  | sameAs (component : String)

namespace Scope

def outline (scope : Scope) (name : String) (pointer : Pointer) (s : Schema) : Traced Outline :=
  match _h : s.category with
  | .enum => return .shape (.enum s.enumDescriptor) []
  | .nullableOf ⟨keyword, index, .schema inner⟩ =>
    outline scope name (pointer.push (keyword.step index)) inner
  | .nullableOf ⟨_, _, .ref target⟩ => do
    let component ← Traced.lift (scope.document.resolveRef name target)
    return .sameAs component
  | .union => do
    Traced.warn (.untypedUnion name)
    return .shape (.primitive .untyped) []
  | .object => do
    let o ← scope.objectShape name pointer s
    return .shape (.object o) o.inlines
  | .array none => return .shape (.array .untyped) []
  | .array (some items) => do
    let (type, inlines) ←
      scope.typeNode [] name (name ++ "Item") items (pointer.push .items)
    return .shape (.array type) inlines
  | .map none => return .shape (.map .untyped) []
  | .map (some values) => do
    let (type, inlines) ←
      scope.typeNode [] name (name ++ "Value") values (pointer.push .additional)
    return .shape (.map type) inlines
  | .primitive type => return .shape (.primitive type) []
termination_by sizeOf s
decreasing_by
  have := Schema.category_nullableOf_lt _h
  simp at this
  omega

end Scope

end SchemaModel
