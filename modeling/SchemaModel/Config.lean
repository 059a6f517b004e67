import SchemaModel.Validation

/-!
Options of a model, and when a property is mandatory under them.
-/

namespace SchemaModel

/-- What to do when several discriminator values select one subtype. -/
inductive DiscriminatorPolicy where
  | lenient
  | strict
deriving DecidableEq, Repr, Inhabited

def DiscriminatorPolicy.name : DiscriminatorPolicy → String
  | lenient => "lenient"
  | strict => "strict"

structure Config where
  mergePatch : Bool
  dialect : Dialect
  policy : DiscriminatorPolicy
deriving DecidableEq, Repr

def Config.standard : Config := ⟨false, .javax, .lenient⟩

/-- Whether the type of a property excludes null. In a merge patch only a nullable property may
be null; otherwise a required one has to be there, and a default fills in for an optional one. -/
def isMandatory (mergePatch isRequired isNullable hasDefault : Bool) : Bool :=
  if mergePatch then !isNullable
  else (isRequired && !isNullable) || (!isRequired && hasDefault)

end SchemaModel
