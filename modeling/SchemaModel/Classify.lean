import SchemaModel.Coercion
import SchemaModel.Config
import SchemaModel.Hierarchy.Basic

/-!
Classifying the properties of an object: which are inherited, which override or may be
overridden, what their defaults are and how they are checked.

The visible properties of a schema are those that its supertypes contribute, followed by its own;
an own declaration hides an inherited one.
-/

namespace SchemaModel

/-- How the discriminator of a subtype is emitted: with its only key, or left to be set. -/
inductive DiscriminatorValue where
  | fixed (key : DiscriminatorKey)
  | settable (keys : List DiscriminatorKey)
deriving DecidableEq, Repr

namespace DiscriminatorPolicy

/-- A subtype needs a key. Several keys are an error or a warning. -/
def evaluate (policy : DiscriminatorPolicy) (schema property : String)
    (keys : List DiscriminatorKey) : Traced DiscriminatorValue :=
  let values := keys.map DiscriminatorKey.value
  match keys with
  | [] => Traced.fail (.noDiscriminatorValue schema property)
  | [key] => return .fixed key
  | several =>
    match policy with
    | strict => Traced.fail (.severalDiscriminatorValues schema property values)
    | lenient => do
      Traced.warn (.severalValues schema property (", ".intercalate values))
      return .settable several

end DiscriminatorPolicy

/-- The literal of a key: a constant of the enum that the discriminator has as its type, or a
string. -/
def DiscriminatorKey.literal (key : DiscriminatorKey) (enumType : Option String) : Literal :=
  match key, enumType with
  | .enumKey _ constant, some name => .enumMember name constant
  | key, _ => .string key.value

/-- The checks that the kind of a property asks for. -/
def PropertyKind.checks : PropertyKind → List Check
  | .field c =>
    (c.pattern.map Check.pattern).toList ++
      (if c.minLength.isSome || c.maxLength.isSome then [.size c.minLength c.maxLength] else []) ++
      (c.minimum.map fun b => Check.decimalMin b.value.text !b.exclusive).toList ++
      (c.maximum.map fun b => Check.decimalMax b.value.text !b.exclusive).toList
  | .collection c =>
    if c.minItems.isSome || c.maxItems.isSome then [.size c.minItems c.maxItems] else []
  | _ => []

/-- The key under which properties that are not declared are captured. -/
def captureKey : String := "properties"

/-- The capture of properties that are not declared. -/
def captureDescriptor (mergePatch : Bool) (values : TypeRef) : PropertyDescriptor where
  key := captureKey
  kind := .additionalCapture
  type := .map values
  isRequired := false
  isNullable := false
  hasDefault := true
  default := some (.literal .emptyMap)
  isDiscriminator := false
  isInherited := false
  mappings := []
  modifier := .final
  wrapping := .plain
  mandatory := isMandatory mergePatch false false true
  checks := []
  description := none

/-- The properties that are visible on a schema. -/
structure Visible where
  properties : List ResolvedProperty
  required : NameSet

namespace Visible

def empty : Visible := ⟨[], .empty⟩

def keys (v : Visible) : List String := v.properties.map ResolvedProperty.key

end Visible

/-- The schemas of a graph with their places in the hierarchy, and the options in force. -/
structure Classifier where
  graph : Graph
  hierarchy : Hierarchy
  config : Config

namespace Classifier

/-- Adds what the schema `name` declares to what is visible on its supertype. -/
def extend (c : Classifier) (name : String) (inherited : Visible) : Visible :=
  let own := c.graph.object? name
  let declares (key : String) : Bool := match own with
    | some o => (o.property? key).isSome
    | none => false
  let kept := inherited.properties.filter fun p => !declares p.key
  let borrowed := match c.hierarchy.discrimination? name with
    | some d =>
      if d.declaredOnSuper || declares d.property || kept.any (fun p => p.key == d.property) then []
      else [d.declaration]
    | none => []
  match own with
  | some o => ⟨kept ++ borrowed ++ o.properties, inherited.required.union o.required⟩
  | none => ⟨kept ++ borrowed, inherited.required⟩

/-- What is visible on the first schema of a line of supertypes, nearest first. -/
def visibleAlong (c : Classifier) : List String → Visible
  | [] => .empty
  | name :: rest => c.extend name (visibleAlong c rest)

def visible (c : Classifier) (name : String) : Visible :=
  c.visibleAlong (name :: c.hierarchy.ancestors name)

/-- The discrimination of the nearest supertype whose discriminator is `key`. -/
def ancestorDiscrimination? (c : Classifier) (name key : String) : Option Discrimination :=
  ((c.hierarchy.ancestors name).filterMap c.hierarchy.discrimination?).find? fun d =>
    d.property == key

/-- The modifier of a property, by the place of its schema and whether the property is the
schema's own discriminator, inherited, or the discriminator of a supertype. -/
def modifier (role : Role) (isOwn isInherited ofAncestor : Bool) : PropertyModifier :=
  match role with
  | .single => .final
  | .super => if isOwn then .abstract else .extensible
  | .intermediate =>
    if isOwn then .abstract else if isInherited then .override else .extensible
  | .sub => if isInherited || ofAncestor then .override else .final

variable [Libraries]

/-- The default that a property declares, and whether it declares one. -/
def declaredDefault (c : Classifier) (name : String) (p : ResolvedProperty)
    (isRequired : Bool) : Traced (Option DefaultValue × Bool) := do
  let literal ← c.graph.coerce name p
  return (DefaultValue.forProperty literal isRequired c.config.mergePatch, literal.isSome)

/-- The default of a property. A discriminator with one key is fixed to it. -/
def propertyDefault (c : Classifier) (name : String) (p : ResolvedProperty)
    (isRequired isAbstract : Bool) (ancestor : Option Discrimination)
    (mappings : List DiscriminatorKey) : Traced (Option DefaultValue × Bool) :=
  if isAbstract then return (none, false)
  else match ancestor with
    | none => c.declaredDefault name p isRequired
    | some d => do
      match ← c.config.policy.evaluate name p.key mappings with
      | .fixed key => return (some (.literal (key.literal d.descriptor.enumType)), true)
      | .settable _ => c.declaredDefault name p isRequired

def propertyChecks (c : Classifier) (role : Role) (p : ResolvedProperty) (mandatory : Bool) :
    List Check :=
  match role with
  | .super => []
  | .intermediate => []
  | _ =>
    (if mandatory then [.notNull] else []) ++ p.kind.checks ++
      if c.graph.isComplex p.type then [.valid] else []

def describe (c : Classifier) (name : String) (visible : Visible) (inherited : List String)
    (p : ResolvedProperty) : Traced PropertyDescriptor := do
  let role := c.hierarchy.role name
  let isOwn := match c.hierarchy.discrimination? name with
    | some d => d.property == p.key
    | none => false
  let ancestor := c.ancestorDiscrimination? name p.key
  let isInherited := inherited.contains p.key
  let isRequired := visible.required.contains p.key
  let modifier := modifier role isOwn isInherited ancestor.isSome
  let mappings := match ancestor with
    | some d => d.keysFor name
    | none => []
  let (default, hasDefault) ← c.propertyDefault name p isRequired (modifier = .abstract) ancestor
    mappings
  let isDiscriminator := isOwn || ancestor.isSome
  let mandatory := isMandatory c.config.mergePatch isRequired p.nullable hasDefault
  return {
    key := p.key
    kind := p.kind
    type := p.type
    isRequired, isNullable := p.nullable, hasDefault, default, isDiscriminator, isInherited
    mappings, modifier
    wrapping :=
      if c.config.mergePatch && !isRequired && !isDiscriminator then .triState else .plain
    mandatory
    checks := c.propertyChecks role p mandatory
    description := p.description }

/-- Describes the properties of an object schema; other schemas have none. -/
def classify (c : Classifier) (name : String) : Traced (List PropertyDescriptor) :=
  match c.graph.object? name with
  | none => return []
  | some o => do
    let visible := c.visible name
    let inherited := match c.hierarchy.parent? name with
      | some parent => (c.visible parent).keys
      | none => []
    let described ← visible.properties.mapM (c.describe name visible inherited)
    return described ++ match o.additional with
      | some additional => [captureDescriptor c.config.mergePatch additional.type]
      | none => []

end Classifier

end SchemaModel
