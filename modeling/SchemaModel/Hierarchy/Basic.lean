import SchemaModel.Resolve.Graph

/-!
Polymorphic hierarchies: the supertype of each schema, and for each supertype the values of its
discriminator that select its subtypes.
-/

namespace SchemaModel

/-- What is known about the discriminator of a supertype. Its declaration is that of the
supertype, or else of the first subtype that has one. The mapping goes to schema names. -/
structure Discrimination where
  descriptor : DiscriminatorDescriptor
  declaration : ResolvedProperty
  declaredOnSuper : Bool
  mapping : List (String × String)
  members : Option EnumDescriptor

/-- The keys that select a subtype: the values mapped to it, or else its own name. Of an enum
discriminator only the values of members count. -/
def discriminatorKeys (mapping : List (String × String)) (members : Option EnumDescriptor)
    (subtype : String) : List DiscriminatorKey :=
  let mapped := (mapping.filter fun e => e.2 == subtype).map Prod.fst
  let values := if mapped.isEmpty then [subtype] else mapped
  match members with
  | none => values.map .stringKey
  | some e => values.filterMap fun value =>
    (e.memberOfText? value).map fun m => .enumKey value m.constant

namespace Discrimination

def property (x : Discrimination) : String := x.descriptor.property

def keysFor (x : Discrimination) (subtype : String) : List DiscriminatorKey :=
  discriminatorKeys x.mapping x.members subtype

end Discrimination

structure Hierarchy where
  parents : NameMap String
  children : NameMap NameSet
  discriminations : NameMap Discrimination

/-- The place of a schema in its hierarchy. -/
inductive Role where
  | single
  | super
  | intermediate
  | sub
deriving DecidableEq, Repr

namespace Hierarchy

def parent? (h : Hierarchy) (name : String) : Option String := h.parents.find? name

def childrenOf (h : Hierarchy) (name : String) : NameSet :=
  (h.children.find? name).getD .empty

def discrimination? (h : Hierarchy) (name : String) : Option Discrimination :=
  h.discriminations.find? name

/-- Goes on from `current` to its supertypes until one is met again. -/
def ancestorsFrom (h : Hierarchy) (name : String) : Nat → List String → String → List String
  | 0, found, _ => found
  | fuel + 1, found, current =>
    match h.parent? current with
    | none => found
    | some parent =>
      if parent = name || found.contains parent then found
      else ancestorsFrom h name fuel (found ++ [parent]) parent

/-- The supertypes of a schema from the nearest on. -/
def ancestors (h : Hierarchy) (name : String) : List String :=
  h.ancestorsFrom name h.parents.size [] name

def role (h : Hierarchy) (name : String) : Role :=
  match (h.discrimination? name).isSome, (h.parent? name).isSome with
  | true, false => .super
  | true, true => .intermediate
  | false, true => .sub
  | false, false => .single

end Hierarchy

end SchemaModel
