import SchemaModel.Resolve.Resolver

/-!
All schemas that a document's components reach, by name. Inline schemas at different positions
may be given one name; the first position keeps it, the others are renamed, and resolution is
repeated, so that names inside a renamed schema follow it.
-/

namespace SchemaModel

variable [Libraries]

structure Graph where
  schemas : NameMap Resolved
  aliases : NameMap String
  warnings : List Warning

namespace Graph

/-- The name of the schema that an alias stands for; any other name stands for itself. -/
def canonical (g : Graph) (name : String) : String := (g.aliases.find? name).getD name

def get? (g : Graph) (name : String) : Option Resolved := g.schemas.find? (g.canonical name)

def object? (g : Graph) (name : String) : Option ObjectShape :=
  (g.get? name).bind fun s => s.shape.object?

/-- The enum that a type names. -/
def enumOf? (g : Graph) (type : TypeRef) : Option (String × EnumDescriptor) := do
  let name ← type.named?
  let s ← g.get? name
  let e ← s.shape.enum?
  return (name, e)

/-- Whether a type, or the element type of an array or map, names an object. -/
def isComplex (g : Graph) (type : TypeRef) : Bool :=
  match type.element.named? with
  | some name => (g.object? name).isSome
  | none => false

end Graph

namespace Resolver

/-- The positions that have each name, in the order of their texts. -/
def boundNames (r : Resolver) : NameMap (NameMap Pointer) :=
  r.resolved.foldl (fun bound e =>
    let pointers := (bound.find? e.2.name).getD .empty
    bound.insert e.2.name (pointers.insert e.1.text e.1)) .empty

/-- Positions that share their name with an earlier one. -/
def collisions (r : Resolver) : List (String × Pointer) :=
  r.boundNames.toList.flatMap fun e => (e.2.values.drop 1).map fun pointer => (e.1, pointer)

def renameAll (used : List String) : List (String × Pointer) → List (Pointer × String)
  | [] => []
  | (name, pointer) :: rest =>
    let unique := Naming.fresh name used
    (pointer, unique) :: renameAll (unique :: used) rest

/-- New names for colliding positions. Those inside another colliding position wait, since their
names derive from its new name. -/
def inlineRenames (r : Resolver) : List (Pointer × String) :=
  let colliding := r.collisions
  let outer := colliding.filter fun e => !colliding.any fun owner => owner.2.encloses e.2
  renameAll (r.scope.document.names ++ r.boundNames.keys) outer

def toGraph (r : Resolver) : Graph :=
  let byPosition := NameMap.ofList (r.resolved.map fun e => (e.1.text, e.2))
  ⟨NameMap.ofList (byPosition.values.map fun s => (s.name, s)), r.aliases, r.warnings⟩

/-- Passes until no two positions have one name. -/
def passes (fuel : Nat) (scope : Scope) (order : List String) : Except Stop Graph :=
  match fuel with
  | 0 => .error .unfinished
  | fuel + 1 =>
    match pass scope order with
    | .error e => .error e
    | .ok r =>
      match r.inlineRenames with
      | [] => .ok r.toGraph
      | renames => passes fuel { scope with renames := renames ++ scope.renames } order

end Resolver

namespace Document

/-- Resolves the named components and all schemas they reach. The name of a position depends on
earlier positions only, so each pass settles one more of them. -/
def resolve (d : Document) (order : List String) : Except Stop Graph :=
  Resolver.passes (d.positions.length + 2) ⟨d, []⟩ order

end Document

end SchemaModel
