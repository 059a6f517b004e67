import SchemaModel.Resolve.Position
import SchemaModel.Resolve.Recall

/-!
Resolving components one after another. A resolver remembers what it has merged and resolved by
position, so a schema that is reached twice is resolved once; the inline schemas met on the way
wait until the components are done.
-/

namespace SchemaModel

structure Resolver extends Memory where
  scope : Scope
  resolved : List (Pointer × Resolved)
  aliases : NameMap String
  pending : List Inline

namespace Resolver

def start (scope : Scope) : Resolver := ⟨.empty, scope, [], .empty, []⟩

def find? (r : Resolver) (pointer : Pointer) : Option Resolved := r.resolved.lookup pointer

def noteAlias (r : Resolver) (name target : String) : Resolver :=
  if target = name then r else { r with aliases := r.aliases.insert name target }

def record (r : Resolver) (s : Resolved) (inlines : List Inline) : Resolver :=
  { r with resolved := r.resolved ++ [(s.pointer, s)], pending := r.pending ++ inlines }

variable [Libraries]

/-- The outline of a schema, found with what the resolver remembers. -/
def outline (r : Resolver) (name : String) (pointer : Pointer) (s : Schema) :
    Resolver × Except Stop Outline :=
  let (memory, outcome) := r.scope.outlineM name pointer s r.toMemory
  ({ r with toMemory := memory }, outcome)

/-- Resolves the component that a name stands for. One step of `fuel` goes to the component that
has the shape of another one. -/
def resolveWithin (fuel : Nat) (r : Resolver) (name : String) :
    Resolver × Except Stop Resolved :=
  match fuel with
  | 0 => (r, .error .unfinished)
  | fuel + 1 =>
    let d := r.scope.document
    match d.followAlias name name with
    | .error e => (r, .error (.failed e))
    | .ok target =>
      let r := r.noteAlias name target
      let pointer := Pointer.ofComponent target
      match d.definition target with
      | .error e => (r, .error (.failed e))
      | .ok s =>
        match r.find? pointer with
        | some known => (r, .ok known)
        | none =>
          match r.outline target pointer s with
          | (r, .error e) => (r, .error e)
          | (r, .ok (.shape shape inlines)) =>
            let found : Resolved := ⟨target, pointer, false, s.description, shape⟩
            (r.record found inlines, .ok found)
          | (r, .ok (.sameAs other)) =>
            match resolveWithin fuel r other with
            | (r, .error e) => (r, .error e)
            | (r, .ok source) =>
              let found : Resolved := ⟨target, pointer, false, s.description, source.shape⟩
              (r.record found [], .ok found)

/-- Resolves a component. A chain of components that share a shape meets each only once, so the
number of components bounds its length. -/
def resolveComponent (r : Resolver) (name : String) : Resolver × Except Stop Resolved :=
  resolveWithin (r.scope.document.names.length + 1) r name

def resolveInline (r : Resolver) (i : Inline) : Except Stop Resolver :=
  match r.outline i.name i.pointer i.schema with
  | (_, .error e) => .error e
  | (r, .ok (.shape shape inlines)) =>
    .ok (r.record ⟨i.name, i.pointer, true, i.schema.description, shape⟩ inlines)
  | (r, .ok (.sameAs component)) =>
    match r.resolveComponent component with
    | (_, .error e) => .error e
    | (r, .ok source) =>
      .ok (r.record ⟨i.name, i.pointer, true, i.schema.description, source.shape⟩ [])

/-- Resolves the inline schemas that wait, and those that they bring. Each of the positions in
`todo` is resolved at most once. -/
def drain (todo : List Pointer) (waiting : List Inline) (r : Resolver) : Except Stop Resolver :=
  match waiting with
  | [] => .ok r
  | i :: rest =>
    if (r.find? i.pointer).isSome then drain todo rest r
    else if _h : i.pointer ∈ todo then
      match r.resolveInline i with
      | .error e => .error e
      | .ok r' => drain (todo.erase i.pointer) (rest ++ r'.pending) { r' with pending := [] }
    else .error .unfinished
termination_by (todo.length, waiting.length)
decreasing_by
  · exact Prod.Lex.right _ (by simp)
  · refine Prod.Lex.left _ _ ?_
    have := List.length_erase_of_mem _h
    have := List.length_pos_of_mem _h
    omega

def resolveAll (r : Resolver) : List String → Except Stop Resolver
  | [] => .ok r
  | name :: rest =>
    match r.resolveComponent name with
    | (_, .error e) => .error e
    | (r, .ok _) => resolveAll r rest

/-- Resolves the named components in order, then every inline schema that they reach. -/
def pass (scope : Scope) (order : List String) : Except Stop Resolver := do
  let r ← (start scope).resolveAll order
  drain scope.document.positions r.pending { r with pending := [] }

end Resolver

end SchemaModel
