import SchemaModel.Document.Basic

/-!
Types of values: scalars, schemas by name, and arrays and maps of either.
-/

namespace SchemaModel

/-- The scalar types. `untyped` admits any value. -/
inductive Primitive where
  | string
  | email
  | uri
  | uuid
  | date
  | dateTime
  | byteArray
  | binary
  | int32
  | int64
  | float
  | double
  | decimal
  | boolean
  | untyped
deriving DecidableEq, Repr, Inhabited

namespace Primitive

def name : Primitive → String
  | string => "string"
  | email => "email"
  | uri => "uri"
  | uuid => "uuid"
  | date => "date"
  | dateTime => "date_time"
  | byteArray => "byte_array"
  | binary => "binary"
  | int32 => "int32"
  | int64 => "int64"
  | float => "float"
  | double => "double"
  | decimal => "decimal"
  | boolean => "boolean"
  | untyped => "untyped"

def all : List Primitive :=
  [string, email, uri, uuid, date, dateTime, byteArray, binary, int32, int64, float, double,
    decimal, boolean, untyped]

def ofName? (text : String) : Option Primitive := all.find? fun p => p.name == text

def ofStringFormat (format : Option String) : Primitive :=
  match format with
  | some "date" => date
  | some "date-time" => dateTime
  | some "uuid" => uuid
  | some "uri" => uri
  | some "url" => uri
  | some "email" => email
  | some "byte" => byteArray
  | some "binary" => binary
  | _ => string

/-- The scalar type of a schema type, refined by its format. -/
def ofSchema (type : SchemaType) (format : Option String) : Primitive :=
  match type with
  | .string => ofStringFormat format
  | .integer => if format = some "int64" then int64 else int32
  | .number =>
    if format = some "float" then float else if format = some "double" then double else decimal
  | .boolean => boolean
  | .object => untyped
  | .array => untyped
  | .null => untyped

def isNumeric : Primitive → Bool
  | int32 => true
  | int64 => true
  | float => true
  | double => true
  | decimal => true
  | _ => false

/-- Free text, to which patterns and limits of length apply. -/
def isTextual : Primitive → Bool
  | string => true
  | email => true
  | uri => true
  | _ => false

end Primitive

inductive TypeRef where
  | primitive (type : Primitive)
  | named (name : String)
  | array (items : TypeRef)
  | map (values : TypeRef)
deriving DecidableEq, Repr, Inhabited

namespace TypeRef

def untyped : TypeRef := primitive .untyped

def named? : TypeRef → Option String
  | named name => some name
  | _ => none

/-- The type inside all arrays and maps. -/
def element : TypeRef → TypeRef
  | array items => items.element
  | map values => values.element
  | other => other

def text : TypeRef → String
  | primitive type => type.name
  | named name => name
  | array items => s!"array<{items.text}>"
  | map values => s!"map<string, {values.text}>"

end TypeRef

end SchemaModel
