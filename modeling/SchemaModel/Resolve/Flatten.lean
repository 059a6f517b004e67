import SchemaModel.Resolve.Property

/-!
Merging the `allOf` branches of an object with its own keywords. Branches come first, in order;
a referenced branch stands for the merged component, and a component that contains itself in
this way is an error. A property keeps its first place and its last declaration, and all its
declarations have one type.
-/

namespace SchemaModel

namespace ObjectShape

/-- Replaces the declaration of a key, or adds it at the end. -/
def put (p : ResolvedProperty) : List ResolvedProperty → List ResolvedProperty
  | [] => [p]
  | q :: rest => if q.key = p.key then p :: rest else q :: put p rest

/-- Declares a property of the schema `name`. -/
def declare (name : String) (o : ObjectShape) (p : ResolvedProperty) :
    Except ModelError ObjectShape :=
  match o.property? p.key with
  | some old =>
    if old.type = p.type then .ok { o with properties := put p o.properties }
    else .error (.conflictingType name p.key old.type.text p.type.text)
  | none => .ok { o with properties := put p o.properties }

/-- Merges a branch. The discriminator of a referenced branch makes the schema a subtype, so only
that of an inline branch is taken over. -/
def merge (name : String) (o branch : ObjectShape) (inlineBranch : Bool) :
    Except ModelError ObjectShape := do
  let o ← branch.properties.foldlM (declare name) o
  return { o with
    required := o.required.union branch.required
    additional := branch.additional.orElse fun _ => o.additional
    discriminator :=
      if inlineBranch then branch.discriminator.orElse fun _ => o.discriminator
      else o.discriminator }

end ObjectShape

namespace Scope

/-- The positions and names of the schemas that are being merged, outermost first. -/
abbrev MergePath := List (Pointer × String)

/-- The components whose own position is on the path. -/
def MergePath.components (path : MergePath) : List String :=
  path.filterMap fun e => if e.1.steps.isEmpty then some e.1.component else none

theorem MergePath.components_append (path more : MergePath) :
    (path ++ more).components = path.components ++ more.components :=
  List.filterMap_append

def mergeCycle (path : MergePath) (name : String) : ModelError :=
  let chain := (path.dropWhile fun e => e.1 != .ofComponent name).map Prod.snd
  .unresolvable name (Reference.ofComponent name) (.cycle (chain ++ [name]))

/-- The type of the properties that are not declared, if there may be any. -/
def additionalType (scope : Scope) (name : String) (pointer : Pointer) :
    Additional → Traced (Option AdditionalType)
  | .flag false => return none
  | .flag true => return some ⟨.untyped, []⟩
  | .values node => do
    let (type, inlines) ← scope.typeNode [] name (name ++ "Value") node (pointer.push .additional)
    return some ⟨type, inlines⟩

variable [Libraries]

def declareOwn (scope : Scope) (name : String) (pointer : Pointer) (o : ObjectShape) :
    List (String × Node) → Traced ObjectShape
  | [] => return o
  | (key, node) :: rest => do
    let p ← scope.resolveProperty name pointer key node
    let o ← Traced.lift (o.declare name p)
    declareOwn scope name pointer o rest

/-- Adds a schema's own keywords to its merged branches. -/
def mergeOwn (scope : Scope) (name : String) (pointer : Pointer) (s : Schema)
    (o : ObjectShape) : Traced ObjectShape := do
  let o ← scope.declareOwn name pointer o s.properties
  let o := { o with required := NameSet.addAll o.required s.required }
  let additional ← match s.additional with
    | none => pure o.additional
    | some additional => scope.additionalType name pointer additional
  return { o with additional, discriminator := s.discriminator.orElse fun _ => o.discriminator }

mutual

/-- The merged schema at a position, which is the last one of `path`. -/
def mergeSchema (scope : Scope) (path : MergePath) (name : String) (pointer : Pointer)
    (s : Schema) : Traced ObjectShape := do
  let o ← mergeBranches scope path name pointer 0 s.allOf .empty
  scope.mergeOwn name pointer s o
termination_by (scope.document.unseen path.components, 1, sizeOf s)
decreasing_by
  exact Prod.Lex.right _ (Prod.Lex.right _ (Schema.sizeOf_allOf_lt s))

/-- Merges the branches from `index` on into `o`. -/
def mergeBranches (scope : Scope) (path : MergePath) (name : String) (pointer : Pointer)
    (index : Nat) (branches : List Node) (o : ObjectShape) : Traced ObjectShape :=
  match branches with
  | [] => return o
  | .ref target :: rest => do
    let parent ← Traced.lift (scope.document.resolveRef name target)
    let inherited ← mergeComponent scope path parent
    let o ← Traced.lift (o.merge name inherited false)
    mergeBranches scope path name pointer (index + 1) rest
      { o with allOfRefs := o.allOfRefs ++ [parent] }
  | .schema s :: rest => do
    let inner := pointer.push (.allOf index)
    let inherited ← mergeSchema scope (path ++ [(inner, name)]) name inner s
    let o ← Traced.lift (o.merge name inherited true)
    mergeBranches scope path name pointer (index + 1) rest
      { o with allOfRefs := o.allOfRefs ++ inherited.allOfRefs }
termination_by (scope.document.unseen path.components, 1, sizeOf branches)
decreasing_by
  · exact Prod.Lex.right _ (Prod.Lex.left _ _ (by omega))
  · refine Prod.Lex.right _ (Prod.Lex.right _ ?_)
    simp only [List.cons.sizeOf_spec]
    omega
  · have hle : scope.document.unseen (MergePath.components (path ++ [(inner, name)])) ≤
        scope.document.unseen path.components := by
      rw [MergePath.components_append]
      exact scope.document.unseen_append_le _ _
    rcases Nat.lt_or_eq_of_le hle with hlt | heq
    · exact Prod.Lex.left _ _ hlt
    · rw [heq]
      refine Prod.Lex.right _ (Prod.Lex.right _ ?_)
      simp only [List.cons.sizeOf_spec, Node.schema.sizeOf_spec]
      omega
  · refine Prod.Lex.right _ (Prod.Lex.right _ ?_)
    simp only [List.cons.sizeOf_spec]
    omega

/-- The merged component, unless it is being merged already. -/
def mergeComponent (scope : Scope) (path : MergePath) (name : String) : Traced ObjectShape :=
  if _hp : name ∈ path.components then Traced.fail (mergeCycle path name)
  else match _h : scope.document.definition? name with
    | none => Traced.fail (Document.missing name)
    | some s =>
      mergeSchema scope (path ++ [(.ofComponent name, name)]) name (.ofComponent name) s
termination_by (scope.document.unseen path.components, 0, 0)
decreasing_by
  refine Prod.Lex.left _ _ ?_
  rw [MergePath.components_append]
  exact scope.document.unseen_append_lt (Document.mem_names_of_definition _h) _hp

end

/-- Adds the named members of a discriminated union. Members without a name are left out. -/
def unionMembers (scope : Scope) (name : String) (index : Nat) (members : List String) :
    List Node → Traced (List String)
  | [] => return members
  | .ref target :: rest => do
    let member ← Traced.lift (scope.document.resolveRef name target)
    unionMembers scope name (index + 1)
      (if members.contains member then members else members ++ [member]) rest
  | .schema _ :: rest => do
    Traced.warn (.inlineUnionMember name index)
    unionMembers scope name (index + 1) members rest

/-- The shape of an object schema under its name and at its position. -/
def objectShape (scope : Scope) (name : String) (pointer : Pointer) (s : Schema) :
    Traced ObjectShape := do
  let o ← scope.mergeSchema [(pointer, name)] name pointer s
  if o.discriminator.isNone then return o
  else
    let members ← scope.unionMembers name 0 o.unionMembers (s.oneOf ++ s.anyOf)
    return { o with unionMembers := members }

end Scope

end SchemaModel
