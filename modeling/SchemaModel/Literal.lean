import SchemaModel.Text.Quoted

/-!
Literals of default values and the defaults of constructor parameters, with their text.
-/

namespace SchemaModel

/-- A literal. The floating and decimal ones keep the text of the number as it was written. -/
inductive Literal where
  | string (value : String)
  | int (value : Int)
  | long (value : Int)
  | float (digits : String)
  | double (digits : String)
  | decimal (digits : String)
  | boolean (value : Bool)
  | date (text : String)
  | dateTime (text : String)
  | uuid (text : String)
  | uri (text : String)
  | enumMember (typeName constant : String)
  | emptyList
  | emptyMap
deriving DecidableEq, Repr

/-- A point or an exponent marks a number as floating. -/
def hasFloatMark (digits : String) : Bool :=
  digits.toList.any fun c => c = '.' || c = 'e' || c = 'E'

namespace Literal

def parsedBy (function text : String) : String := function ++ "(" ++ Text.quote text ++ ")"

def text : Literal → String
  | string value => Text.quote value
  | int value => toString value
  | long value => toString value ++ "L"
  | float digits => digits ++ "f"
  | double digits => if hasFloatMark digits then digits else digits ++ ".0"
  | decimal digits => parsedBy "java.math.BigDecimal" digits
  | boolean value => if value then "true" else "false"
  | date text => parsedBy "java.time.LocalDate.parse" text
  | dateTime text => parsedBy "java.time.OffsetDateTime.parse" text
  | uuid text => parsedBy "java.util.UUID.fromString" text
  | uri text => parsedBy "java.net.URI" text
  | enumMember typeName constant => typeName ++ "." ++ constant
  | emptyList => "emptyList()"
  | emptyMap => "mutableMapOf()"

end Literal

/-- The default of a constructor parameter: a literal, or for a property that may be left out of
a merge patch one of the forms of `JsonNullable`. -/
inductive DefaultValue where
  | literal (value : Literal)
  | present (value : Literal)
  | undefined
  | null
deriving DecidableEq, Repr

namespace DefaultValue

/-- A required property has no constructor default. -/
def forProperty (literal : Option Literal) (isRequired mergePatch : Bool) :
    Option DefaultValue :=
  if isRequired then none
  else match literal, mergePatch with
    | some value, true => some (.present value)
    | none, true => some .undefined
    | some value, false => some (.literal value)
    | none, false => some .null

def literal? : DefaultValue → Option Literal
  | literal value => some value
  | present value => some value
  | undefined => none
  | null => none

def text : DefaultValue → String
  | literal value => value.text
  | present value => "JsonNullable.of(" ++ value.text ++ ")"
  | undefined => "JsonNullable.undefined()"
  | null => "null"

end DefaultValue

end SchemaModel
