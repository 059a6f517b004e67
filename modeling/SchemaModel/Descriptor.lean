import SchemaModel.Literal
import SchemaModel.NameMap
import SchemaModel.TypeRef
import SchemaModel.Validation

/-!
Descriptors: what a model says about a schema and its properties.
-/

namespace SchemaModel

structure EnumMember where
  value : Json
  constant : String

structure EnumDescriptor where
  base : Primitive
  members : List EnumMember

namespace EnumDescriptor

/-- The member with an equal value. -/
def member? (e : EnumDescriptor) (value : Json) : Option EnumMember :=
  e.members.find? fun m => m.value.same value

def memberOfText? (e : EnumDescriptor) (text : String) : Option EnumMember :=
  e.members.find? fun m => m.value.str? == some text

end EnumDescriptor

/-- A value that selects a subtype, with its constant if it is a member of an enum. -/
inductive DiscriminatorKey where
  | enumKey (value constant : String)
  | stringKey (value : String)
deriving DecidableEq, Repr

def DiscriminatorKey.value : DiscriminatorKey → String
  | enumKey value _ => value
  | stringKey value => value

structure DiscriminatorDescriptor where
  property : String
  enumType : Option String
  subtypeKeys : NameMap (List DiscriminatorKey)

structure NumericBound where
  value : Number
  exclusive : Bool
deriving DecidableEq, Repr

structure FieldConstraints where
  pattern : Option String
  minLength : Option Nat
  maxLength : Option Nat
  minimum : Option NumericBound
  maximum : Option NumericBound
deriving DecidableEq, Repr

def FieldConstraints.none : FieldConstraints := ⟨.none, .none, .none, .none, .none⟩

structure CollectionConstraints where
  minItems : Option Nat
  maxItems : Option Nat
  uniqueItems : Bool
deriving DecidableEq, Repr

inductive PropertyKind where
  | field (constraints : FieldConstraints)
  | objectRef (target : String)
  | objectInlined (target : String)
  | collection (constraints : CollectionConstraints)
  | map
  | additionalCapture
deriving DecidableEq, Repr

def PropertyKind.label : PropertyKind → String
  | field _ => "field"
  | objectRef _ => "object ref"
  | objectInlined _ => "object inlined"
  | collection _ => "collection"
  | map => "map"
  | additionalCapture => "additional properties"

/-- Whether a subtype may or must declare a property again, or does so itself. -/
inductive PropertyModifier where
  | final
  | abstract
  | extensible
  | override
deriving DecidableEq, Repr, Inhabited

def PropertyModifier.name : PropertyModifier → String
  | final => "none"
  | abstract => "abstract"
  | extensible => "open"
  | override => "override"

/-- A tri-state property can be absent, null or a value. -/
inductive Wrapping where
  | plain
  | triState
deriving DecidableEq, Repr, Inhabited

def Wrapping.name : Wrapping → String
  | plain => "plain"
  | triState => "tri_state"

structure PropertyDescriptor where
  key : String
  kind : PropertyKind
  type : TypeRef
  isRequired : Bool
  isNullable : Bool
  hasDefault : Bool
  default : Option DefaultValue
  isDiscriminator : Bool
  isInherited : Bool
  mappings : List DiscriminatorKey
  modifier : PropertyModifier
  wrapping : Wrapping
  mandatory : Bool
  checks : List Check
  description : Option String
deriving DecidableEq, Repr

def PropertyDescriptor.isCapture (p : PropertyDescriptor) : Bool :=
  p.kind == .additionalCapture

inductive SchemaKind where
  | primitive (type : Primitive)
  | enum (descriptor : EnumDescriptor)
  | objectSingle
  | objectSuper (discriminator : DiscriminatorDescriptor)
  | objectSub
  | arrayOf (items : TypeRef)
  | mapOf (values : TypeRef)

def SchemaKind.label : SchemaKind → String
  | primitive _ => "primitive"
  | enum _ => "enum"
  | objectSingle => "object"
  | objectSuper _ => "polymorphic super"
  | objectSub => "polymorphic sub"
  | arrayOf _ => "array"
  | mapOf _ => "map"

structure SchemaDescriptor where
  name : String
  pointer : String
  kind : SchemaKind
  properties : List PropertyDescriptor
  supertype : Option String
  subtypes : NameSet
  description : Option String
  inline : Bool

namespace SchemaDescriptor

/-- The declared property of a key; the capture of additional properties is none. -/
def property? (d : SchemaDescriptor) (key : String) : Option PropertyDescriptor :=
  d.properties.find? fun p => p.key == key && !p.isCapture

def capture? (d : SchemaDescriptor) : Option PropertyDescriptor :=
  d.properties.find? fun p => p.isCapture

def discriminator? (d : SchemaDescriptor) : Option DiscriminatorDescriptor :=
  match d.kind with
  | .objectSuper discriminator => some discriminator
  | _ => none

def isObject (d : SchemaDescriptor) : Bool :=
  match d.kind with
  | .objectSingle => true
  | .objectSuper _ => true
  | .objectSub => true
  | _ => false

def isSuper (d : SchemaDescriptor) : Bool := d.discriminator?.isSome

end SchemaDescriptor

/-- All descriptors by name, and the names that stand for others. -/
structure TypeModel where
  schemas : NameMap SchemaDescriptor
  aliases : NameMap String

namespace TypeModel

/-- The descriptor of a schema or of what an alias stands for. -/
def get? (m : TypeModel) (name : String) : Option SchemaDescriptor :=
  (m.schemas.find? name).orElse fun _ => (m.aliases.find? name).bind m.schemas.find?

def supertypeOf? (m : TypeModel) (d : SchemaDescriptor) : Option SchemaDescriptor :=
  d.supertype.bind m.get?

def subtypesOf (m : TypeModel) (d : SchemaDescriptor) : List SchemaDescriptor :=
  d.subtypes.keys.filterMap m.get?

end TypeModel

end SchemaModel
