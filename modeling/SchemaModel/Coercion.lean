import SchemaModel.Resolve.Graph
import SchemaModel.Decimal.Numeral
import SchemaModel.Libraries
import SchemaModel.Text.Blank

/-!
Turning the default that a document declares into a literal of the property's type. A default
that no literal can express is ignored with a warning; one that does not fit the type is an
error.
-/

namespace SchemaModel

/-- Whether a whole number fits a signed word of the given number of bits. -/
def fitsSigned (bits : Nat) (n : Int) : Bool :=
  -(Nat.pow 2 (bits - 1) : Int) ≤ n && n < (Nat.pow 2 (bits - 1) : Int)

/-- A whole number written with an optional sign. -/
def integerText? (cs : List Char) : Option Int :=
  let (negative, digits) := Numeral.splitSign cs
  if digits.isEmpty || !digits.all Char.isDigit then none
  else
    let n : Int := Numeral.natOfDigits digits
    some (if negative then -n else n)

def signed64? (n : Int) : Option Int := if fitsSigned 64 n then some n else none

/-- The whole number of a default, from a number or from a text. -/
def Json.integer? : Json → Option Int
  | .num (.int n) => signed64? n
  | .str text => (integerText? (Text.trim text.toList)).bind signed64?
  | _ => none

/-- The text of a numeric default as it was written, if it denotes a finite number. -/
def Json.numericText? : Json → Option String
  | .num n => some n.text
  | .str text =>
    let cs := Text.trim text.toList
    ((Numeral.read? cs).bind Numeral.toDouble?).map fun _ => String.ofList cs
  | _ => none

def coerceString : Json → Option Literal
  | .str text => some (.string text)
  | .num n => some (.string n.text)
  | .bool b => some (.string (if b then "true" else "false"))
  | _ => none

def coerceBoolean : Json → Option Literal
  | .bool b => some (.boolean b)
  | .str "true" => some (.boolean true)
  | .str "false" => some (.boolean false)
  | _ => none

def coerceUntyped : Json → Option Literal
  | .str text => some (.string text)
  | .bool b => some (.boolean b)
  | .num (.int n) =>
    match signed64? n with
    | some n => some (.long n)
    | none => some (.decimal (toString n))
  | .num n => some (.decimal n.text)
  | _ => none

variable [Libraries]

/-- The literal of a scalar type for a default that fits it. -/
def coercePrimitive (type : Primitive) (v : Json) : Option Literal :=
  match type with
  | .string => coerceString v
  | .email => coerceString v
  | .uri => v.str?.map .uri
  | .uuid => (v.str?.bind fun text => Libraries.uuid? (Text.trim text.toList)).map .uuid
  | .date => (v.str?.filter Libraries.isDate).map .date
  | .dateTime => (v.str?.filter Libraries.isInstant).map .dateTime
  | .int32 => (v.integer?.filter (fitsSigned 32)).map .int
  | .int64 => v.integer?.map .long
  | .float => v.numericText?.map .float
  | .double => v.numericText?.map .double
  | .decimal => v.numericText?.map .decimal
  | .boolean => coerceBoolean v
  | .untyped => coerceUntyped v
  | .byteArray => none
  | .binary => none

namespace Graph

def ignoreDefault (schema property reason : String) : Traced (Option Literal) := do
  Traced.warn (.ignoredDefault schema property reason)
  return none

/-- The literal for a default `v` of a property. -/
def coerceValue (g : Graph) (schema property : String) (type : TypeRef) (v : Json) :
    Traced (Option Literal) :=
  match type with
  | .named _ =>
    match g.enumOf? type with
    | none => ignoreDefault schema property "object defaults are not supported"
    | some (name, e) =>
      match e.member? v with
      | some m => return some (.enumMember name m.constant)
      | none => Traced.fail (.unknownEnumDefault schema property name (Schema.valueText v))
  | .array _ =>
    match v with
    | .arr [] => return some .emptyList
    | _ => ignoreDefault schema property "only an empty array default is supported"
  | .map _ =>
    match v with
    | .obj [] => return some .emptyMap
    | _ => ignoreDefault schema property "only an empty object default is supported"
  | .primitive primitive =>
    if primitive = .byteArray || primitive = .binary then
      ignoreDefault schema property "binary defaults are not supported"
    else match coercePrimitive primitive v with
      | some literal => return some literal
      | none =>
        Traced.fail (.incompatibleDefault schema property primitive.name (Schema.valueText v))

/-- The literal for the default of a property of a schema, if it has one. -/
def coerce (g : Graph) (schema : String) (p : ResolvedProperty) : Traced (Option Literal) :=
  match p.default with
  | none => return none
  | some .null => return none
  | some v => g.coerceValue schema p.key p.type v

end Graph

end SchemaModel
