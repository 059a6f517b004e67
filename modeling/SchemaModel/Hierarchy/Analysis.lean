import SchemaModel.Hierarchy.Basic
import SchemaModel.Hierarchy.Reach

/-!
Finding the hierarchy of a graph. A schema's candidate supertypes are the discriminated schemas
that it names in `allOf` and those that list it as a member or map a value to it. Of these only
the nearest is its supertype: a candidate that is reached from another one is further away.
-/

namespace SchemaModel

/-- The candidate supertypes of each schema. -/
abbrev Candidates := NameMap NameSet

namespace Candidates

def add (c : Candidates) (schema candidate : String) : Candidates :=
  c.insert schema (((c.find? schema).getD .empty).add candidate)

def of (c : Candidates) (schema : String) : List String :=
  ((c.find? schema).getD .empty).keys

/-- The schemas that have candidates or are one. -/
def nodes (c : Candidates) : List String :=
  (c.keys ++ c.values.flatMap NameMap.keys).eraseDups

/-- The candidates of candidates and so on. -/
def above (c : Candidates) (schema : String) : List String := reach c.nodes c.of schema

/-- The candidates that are not reached from another one. -/
def direct (c : Candidates) (schema : String) : List String :=
  (c.of schema).filter fun candidate =>
    !(c.of schema).any fun other => other != candidate && (c.above other).contains candidate

end Candidates

/-- The one direct candidate of each schema. -/
def selectParents (c : Candidates) : List String → NameMap String →
    Except ModelError (NameMap String)
  | [], parents => .ok parents
  | schema :: rest, parents =>
    match c.direct schema with
    | [] => selectParents c rest parents
    | [parent] => selectParents c rest (parents.insert schema parent)
    | several => .error (.ambiguousSupertype schema several)

/-- A cycle of supertypes: the one with the first name, its members in name order. -/
def findCycle (parents : NameMap String) : Option (List String) :=
  let above := reach (parents.keys ++ parents.values).eraseDups fun name =>
    (parents.find? name).toList
  (parents.keys.find? fun name => (above name).contains name).map fun name =>
    (NameSet.ofNames (above name)).keys

namespace Graph

/-- The discriminated object schemas, in name order. -/
def supers (g : Graph) : List (String × ObjectShape × Discriminator) :=
  g.schemas.toList.filterMap fun e => do
    let o ← e.2.shape.object?
    let discriminator ← o.discriminator
    return (e.1, o, discriminator)

/-- The schema that a mapping leads to, by reference or by name. -/
def mappingTarget (g : Graph) (schema target : String) : Except ModelError String := do
  let name ←
    if target.startsWith "#" then
      match Reference.component? target with
      | some name => .ok name
      | none => .error (.unresolvable schema target .external)
    else .ok target
  let canonical := g.canonical name
  if (g.get? canonical).isSome then .ok canonical
  else .error (.unresolvable schema target .dangling)

/-- Candidates by `allOf` references. -/
def branchCandidates (g : Graph) : Candidates :=
  let superNames := g.supers.map fun e => e.1
  g.schemas.toList.foldl (fun c e =>
    match e.2.shape.object? with
    | none => c
    | some o => o.allOfRefs.foldl (fun c parent =>
      let parent := g.canonical parent
      if superNames.contains parent then c.add e.1 parent else c) c) .empty

def addMembers (g : Graph) (c : Candidates) :
    List (String × ObjectShape × Discriminator) → Except ModelError Candidates
  | [] => .ok c
  | (name, o, discriminator) :: rest => do
    let targets ← discriminator.mapping.mapM fun e => g.mappingTarget name e.2
    let members := o.unionMembers.map g.canonical ++ targets
    addMembers g ((members.filter fun m => m != name).foldl (fun c m => c.add m name) c) rest

/-- Candidates by branches, members and mappings. -/
def candidates (g : Graph) : Except ModelError Candidates :=
  g.addMembers g.branchCandidates g.supers

/-- The discriminator of a supertype with the given children. -/
def discriminate (g : Graph) (name : String) (o : ObjectShape) (discriminator : Discriminator)
    (children : NameSet) : Except ModelError Discrimination := do
  let property := discriminator.propertyName
  let ordered :=
    (o.unionMembers.filter fun m => children.contains m) ++
      children.keys.filter fun child => !o.unionMembers.contains child
  let declared (schema : String) : Option ResolvedProperty :=
    (g.object? schema).bind fun o => o.property? property
  let (declaration, declaredOnSuper) ← match o.property? property with
    | some declaration => .ok (declaration, true)
    | none =>
      match ordered.findSome? declared with
      | some declaration => .ok (declaration, false)
      | none => .error (.missingDiscriminator name (ordered.headD name) property)
  if !declaredOnSuper then
    match ordered.find? fun child => (declared child).isNone with
    | some child => .error (.missingDiscriminator name child property)
    | none => pure ()
  let found := g.enumOf? declaration.type
  let mapping ← discriminator.mapping.mapM fun e =>
    (g.mappingTarget name e.2).map fun target => (e.1, target)
  let members := found.map Prod.snd
  let subtypeKeys := children.map fun child _ => discriminatorKeys mapping members child
  return ⟨⟨property, found.map Prod.fst, subtypeKeys⟩, declaration, declaredOnSuper, mapping,
    members⟩

def discriminateAll (g : Graph) (children : NameMap NameSet) (found : NameMap Discrimination) :
    List (String × ObjectShape × Discriminator) → Except ModelError (NameMap Discrimination)
  | [] => .ok found
  | (name, o, discriminator) :: rest => do
    let d ← g.discriminate name o discriminator ((children.find? name).getD .empty)
    discriminateAll g children (found.insert name d) rest

/-- The schemas that have each supertype. -/
def childrenByParent (parents : NameMap String) : NameMap NameSet :=
  parents.toList.foldl (fun children e =>
    children.insert e.2 (((children.find? e.2).getD .empty).add e.1)) .empty

def hierarchy (g : Graph) : Except ModelError Hierarchy := do
  let candidates ← g.candidates
  let parents ← selectParents candidates candidates.keys .empty
  match findCycle parents with
  | some cycle => .error (.cyclicInheritance cycle)
  | none =>
    let children := childrenByParent parents
    let discriminations ← g.discriminateAll children .empty g.supers
    return ⟨parents, children, discriminations⟩

end Graph

end SchemaModel
