import SchemaModel.Resolve.Typing
import SchemaModel.Pattern

/-!
Resolving a property: its type, the keywords that apply to it, and what kind of property these
make it. The keywords of a reference are those of its target; a wrapper around a reference or
beside `null` may replace the description and the default.
-/

namespace SchemaModel

/-- The bound that `minimum` or `maximum` sets together with its exclusive keyword. A number as
exclusive keyword is the bound itself. -/
def numericBound (value : Option Number) (exclusive : Option ExclusiveBound) :
    Option NumericBound :=
  match exclusive with
  | some (.value bound) => some ⟨bound, true⟩
  | some (.flag exclusive) => value.map fun v => ⟨v, exclusive⟩
  | none => value.map fun v => ⟨v, false⟩

namespace Document

/-- The schema whose keywords apply to a node. -/
def effective (d : Document) (context : String) (node : Node) : Except ModelError Schema :=
  match node with
  | .ref target => do
    let name ← d.resolveRef context target
    let s ← d.definition name
    return match s.nullableUnion? with
      | some ⟨_, _, .schema inner⟩ => inner
      | _ => s
  | .schema s =>
    match s.singleAllOfRef? with
    | some target => do
      let name ← d.resolveRef context target
      let inner ← d.definition name
      let inner := match inner.nullableUnion? with
        | some ⟨_, _, .schema inner⟩ => inner
        | _ => inner
      return overlay s inner
    | none =>
      match _h : s.nullableUnion? with
      | some union => do
        let inner ← effective d context union.inner
        return overlay s inner
      | none => return s
termination_by sizeOf node
decreasing_by
  have := Schema.nullableUnion_lt _h
  simp
  omega
where
  /-- Keywords of a wrapper that replace those of what it wraps. -/
  overlay (wrapper inner : Schema) : Schema :=
    { inner with
      default := wrapper.default.orElse fun _ => inner.default
      description := wrapper.description.orElse fun _ => inner.description }

/-- Whether a reference may be null: by an alias on the way, or by what it leads to. -/
def isNullableRef (d : Document) (context target : String) : Except ModelError Bool := do
  let byAlias := match (Reference.component? target).bind d.find? with
    | some node => node.isNullable
    | none => false
  let name ← d.resolveRef context target
  let s ← d.definition name
  return byAlias || s.isNullable

def isNullable (d : Document) (context : String) : Node → Except ModelError Bool
  | .ref target => d.isNullableRef context target
  | .schema s =>
    match s.singleAllOfRef? with
    | some target => if s.isNullable then return true else d.isNullableRef context target
    | none => return s.isNullable

end Document

variable [Libraries]

/-- The constraints of a scalar property. A pattern that is no regular expression is dropped. -/
def fieldConstraints (owner key : String) (type : Primitive) (s : Schema) :
    Traced FieldConstraints := do
  let pattern ← match if type.isTextual then s.pattern else none with
    | none => pure none
    | some pattern =>
      match Pattern.error? pattern with
      | none => pure (some pattern)
      | some error => do
        Traced.warn (.invalidPattern owner key error)
        pure none
  return {
    pattern
    minLength := if type.isTextual then s.minLength else none
    maxLength := if type.isTextual then s.maxLength else none
    minimum := if type.isNumeric then numericBound s.minimum s.exclusiveMinimum else none
    maximum := if type.isNumeric then numericBound s.maximum s.exclusiveMaximum else none }

namespace Scope

/-- What kind of property a node of a given type is, under its effective keywords. -/
def propertyKind (owner key : String) (node : Node) (type : TypeRef) (effective : Schema) :
    Traced PropertyKind :=
  match type with
  | .named target =>
    if effective.hasEnumValues then return .field .none
    else if node.isReferenceLike then return .objectRef target
    else return .objectInlined target
  | .array _ =>
    return .collection ⟨effective.minItems, effective.maxItems, effective.uniqueItems.getD false⟩
  | .map _ => return .map
  | .primitive type => do
    let constraints ← fieldConstraints owner key type effective
    return .field constraints

/-- Resolves the property `key` of the schema `owner` at a position. -/
def resolveProperty (scope : Scope) (owner : String) (pointer : Pointer) (key : String)
    (node : Node) : Traced ResolvedProperty := do
  let (type, inlines) ← scope.typeNode [] owner (Naming.inlineName owner key) node
    (pointer.push (.property key))
  let effective ← Traced.lift (scope.document.effective owner node)
  let kind ← propertyKind owner key node type effective
  let nullable ← Traced.lift (scope.document.isNullable owner node)
  return ⟨key, type, kind, nullable, effective.default, effective.description, inlines⟩

end Scope

end SchemaModel
