import SchemaModel.Error

/-!
Warnings, and computations that warn and may fail. `Traced` keeps the warnings of a computation
in the order in which they arise, up to its end or to the error that ends it.
-/

namespace SchemaModel

inductive Warning where
  | untypedUnion (schema : String)
  | inlineUnionMember (schema : String) (index : Nat)
  | severalValues (schema property values : String)
  | invalidPattern (schema property error : String)
  | ignoredDefault (schema property reason : String)
deriving DecidableEq, Repr

namespace Warning

def schema : Warning → String
  | untypedUnion schema => schema
  | inlineUnionMember schema _ => schema
  | severalValues schema _ _ => schema
  | invalidPattern schema _ _ => schema
  | ignoredDefault schema _ _ => schema

/-- Warnings about losing a part of the document. -/
def isLossy : Warning → Bool
  | untypedUnion _ => true
  | inlineUnionMember _ _ => true
  | _ => false

def text : Warning → String
  | untypedUnion schema =>
    s!"Schema '{schema}': oneOf/anyOf without a discriminator is treated as an untyped value"
  | inlineUnionMember schema index =>
    s!"Schema '{schema}': inline member #{index} of a discriminated union has no name and is " ++
      "ignored"
  | severalValues schema property values =>
    s!"Schema '{schema}': discriminator '{property}' has several values ({values}); the field " ++
      "stays settable"
  | invalidPattern schema property error =>
    s!"Schema '{schema}': pattern on '{property}' is not a valid regex and is dropped: {error}"
  | ignoredDefault schema property reason =>
    s!"Schema '{schema}': default of '{property}' is ignored: {reason}"

end Warning

/-- Adds the warnings that are not there yet, in order. -/
def noteAll (noted : List Warning) (warnings : List Warning) : List Warning :=
  warnings.foldl (fun noted w => if noted.contains w then noted else noted ++ [w]) noted

/-- An outcome, and the warnings that arose before it. -/
structure Traced (α : Type) where
  outcome : Except ModelError α
  warnings : List Warning

namespace Traced

def ok {α : Type} (value : α) : Traced α := ⟨.ok value, []⟩

def fail {α : Type} (error : ModelError) : Traced α := ⟨.error error, []⟩

def warn (warning : Warning) : Traced Unit := ⟨.ok (), [warning]⟩

def bind {α β : Type} (x : Traced α) (f : α → Traced β) : Traced β :=
  match x with
  | ⟨.error e, warnings⟩ => ⟨.error e, warnings⟩
  | ⟨.ok a, warnings⟩ => ⟨(f a).outcome, warnings ++ (f a).warnings⟩

instance : Monad Traced where
  pure := ok
  bind := bind

def lift {α : Type} (x : Except ModelError α) : Traced α := ⟨x, []⟩

end Traced

end SchemaModel
