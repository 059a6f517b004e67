import SchemaModel.Descriptor
import SchemaModel.Pointer

/-!
Resolved schemas: what a schema is once its references are followed and its `allOf` branches are
merged.
-/

namespace SchemaModel

/-- An object or enum that stands inside another schema, with the name made for it. -/
structure Inline where
  name : String
  pointer : Pointer
  schema : Schema

structure ResolvedProperty where
  key : String
  type : TypeRef
  kind : PropertyKind
  nullable : Bool
  default : Option Json
  description : Option String
  inlines : List Inline

structure AdditionalType where
  type : TypeRef
  inlines : List Inline

/-- An object with its `allOf` branches merged. The discriminator is its own or that of an inline
branch; `allOfRefs` are the components that its branches name, `unionMembers` the named members
of its discriminated union. -/
structure ObjectShape where
  properties : List ResolvedProperty
  required : NameSet
  additional : Option AdditionalType
  discriminator : Option Discriminator
  allOfRefs : List String
  unionMembers : List String

namespace ObjectShape

def empty : ObjectShape := ⟨[], .empty, none, none, [], []⟩

def property? (o : ObjectShape) (key : String) : Option ResolvedProperty :=
  o.properties.find? fun p => p.key == key

def keys (o : ObjectShape) : List String := o.properties.map ResolvedProperty.key

/-- The schemas inside an object, in the order in which they are resolved. -/
def inlines (o : ObjectShape) : List Inline :=
  o.properties.flatMap ResolvedProperty.inlines ++
    match o.additional with
    | some additional => additional.inlines
    | none => []

end ObjectShape

inductive Shape where
  | primitive (type : Primitive)
  | enum (descriptor : EnumDescriptor)
  | array (items : TypeRef)
  | map (values : TypeRef)
  | object (object : ObjectShape)

def Shape.object? : Shape → Option ObjectShape
  | .object o => some o
  | _ => none

def Shape.enum? : Shape → Option EnumDescriptor
  | .enum e => some e
  | _ => none

/-- A schema of the document under its name; `inline` if it is no component. -/
structure Resolved where
  name : String
  pointer : Pointer
  inline : Bool
  description : Option String
  shape : Shape

end SchemaModel
