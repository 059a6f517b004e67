import SchemaModel.Resolve.Flatten

/-!
What is kept while schemas are resolved one after another: the schemas that were merged, by
position; the way to the work at hand, on which a schema that is met again makes a cycle; and the
warnings. All of it is one state. It outlives an error, so whoever puts an entry on the way takes
it off again, whether the work that follows fails or not.
-/

namespace SchemaModel

/-- Why there is no result: the document is at fault, or the work does not come to an end. -/
inductive Stop where
  | failed (error : ModelError)
  | unfinished
deriving DecidableEq, Repr

def Stop.ofExcept {α : Type} : Except ModelError α → Except Stop α
  | .error e => .error (.failed e)
  | .ok a => .ok a

/-- The schemas merged so far; those that are being merged, and the components whose type is being
found, outermost first; and the warnings so far. -/
structure Memory where
  merged : List (Pointer × ObjectShape)
  merging : Scope.MergePath
  typing : List String
  warnings : List Warning

namespace Memory

def empty : Memory := ⟨[], [], [], []⟩

def find? (m : Memory) (pointer : Pointer) : Option ObjectShape := m.merged.lookup pointer

def note (m : Memory) (warnings : List Warning) : Memory :=
  { m with warnings := noteAll m.warnings warnings }

def remember (m : Memory) (pointer : Pointer) (o : ObjectShape) : Memory :=
  { m with merged := (pointer, o) :: m.merged }

end Memory

/-- A computation that changes the memory, whether it fails or not. -/
def Recall (α : Type) : Type := Memory → Memory × Except Stop α

namespace Recall

variable {α β : Type}

def bind (x : Recall α) (f : α → Recall β) : Recall β := fun m =>
  match x m with
  | (m, .error e) => (m, .error e)
  | (m, .ok a) => f a m

instance : Monad Recall where
  pure a := fun m => (m, .ok a)
  bind := bind

def get : Recall Memory := fun m => (m, .ok m)

def stop (reason : Stop) : Recall α := fun m => (m, .error reason)

/-- A computation that needs no memory; its warnings are noted. -/
def trace (x : Traced α) : Recall α := fun m => (m.note x.warnings, Stop.ofExcept x.outcome)

/-- The merged schema at a position: the one in memory, or else the one that `x` finds, which is
remembered. -/
def once (pointer : Pointer) (x : Recall ObjectShape) : Recall ObjectShape := fun m =>
  match m.find? pointer with
  | some o => (m, .ok o)
  | none =>
    match x m with
    | (m, .error e) => (m, .error e)
    | (m, .ok o) => (m.remember pointer o, .ok o)

/-- Puts a schema on the way of merging as long as `x` lasts. -/
def whileMerging (pointer : Pointer) (name : String) (x : Recall α) : Recall α := fun m =>
  let (after, outcome) := x { m with merging := m.merging ++ [(pointer, name)] }
  ({ after with merging := after.merging.dropLast }, outcome)

/-- Puts a component on the way of typing as long as `x` lasts. -/
def whileTyping (name : String) (x : Recall α) : Recall α := fun m =>
  let (after, outcome) := x { m with typing := m.typing ++ [name] }
  ({ after with typing := after.typing.dropLast }, outcome)

end Recall

end SchemaModel
