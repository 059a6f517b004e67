import SchemaModel.Text.Quoted

/-!
Validation checks on properties, and their text in either of two package families.
-/

namespace SchemaModel

inductive Dialect where
  | javax
  | jakarta
deriving DecidableEq, Repr, Inhabited

namespace Dialect

def name : Dialect → String
  | javax => "javax"
  | jakarta => "jakarta"

def package : Dialect → String
  | javax => "javax.validation"
  | jakarta => "jakarta.validation"

end Dialect

inductive Check where
  | notNull
  | valid
  | pattern (regexp : String)
  | size (min max : Option Nat)
  | decimalMin (value : String) (inclusive : Bool)
  | decimalMax (value : String) (inclusive : Bool)
deriving DecidableEq, Repr

namespace Check

def name : Check → String
  | notNull => "NotNull"
  | valid => "Valid"
  | pattern _ => "Pattern"
  | size _ _ => "Size"
  | decimalMin _ _ => "DecimalMin"
  | decimalMax _ _ => "DecimalMax"

/-- All checks but `Valid` live in the package of constraints. -/
def qualifiedName (check : Check) (dialect : Dialect) : String :=
  match check with
  | valid => dialect.package ++ ".Valid"
  | other => dialect.package ++ ".constraints." ++ other.name

def boundText (value : String) (inclusive : Bool) : String :=
  "(value = \"" ++ value ++ "\", inclusive = " ++ toString inclusive ++ ")"

def arguments : Check → String
  | notNull => ""
  | valid => ""
  | pattern regexp => "(regexp = " ++ Text.quote regexp ++ ")"
  | size min max =>
    let given := [min.map fun n => s!"min = {n}", max.map fun n => s!"max = {n}"].filterMap id
    "(" ++ ", ".intercalate given ++ ")"
  | decimalMin value inclusive => boundText value inclusive
  | decimalMax value inclusive => boundText value inclusive

def text (check : Check) (dialect : Dialect) : String :=
  "@" ++ check.qualifiedName dialect ++ check.arguments

end Check

end SchemaModel
