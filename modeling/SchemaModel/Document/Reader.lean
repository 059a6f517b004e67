import SchemaModel.Libraries
import SchemaModel.Json.Printer

/-!
Reading a document from a JSON value. `Node.read?` accepts an object whose `$ref` is a string as
a reference, whatever else is in it, and any other object as a schema if each keyword in it has
an admissible value. Members that are no keywords are ignored. A list with a value for every
keyword, in the order of `Schema.keywords`, stands for the object that has these members.

`Document.read` checks the version, the header and the components in this order and reports the
first failure.
-/

namespace SchemaModel

namespace Json

/-- The size of the values of members, names aside. -/
noncomputable def extent : List (String × Json) → Nat
  | [] => 1
  | e :: rest => sizeOf e.2 + extent rest

theorem extent_pos (fields : List (String × Json)) : 0 < extent fields := by
  induction fields with
  | nil => exact Nat.one_pos
  | cons e rest ih => exact Nat.add_pos_right _ ih

theorem sizeOf_lt_of_lookup {fields : List (String × Json)} {key : String} {v : Json}
    (h : fields.lookup key = some v) : sizeOf v < extent fields := by
  induction fields with
  | nil => simp at h
  | cons e rest ih =>
    obtain ⟨name, value⟩ := e
    rw [List.lookup_cons] at h
    split at h
    · cases h
      exact Nat.lt_add_of_pos_right (extent_pos rest)
    · exact Nat.lt_add_left _ (ih h)

theorem extent_le_sizeOf (fields : List (String × Json)) : extent fields ≤ sizeOf fields := by
  induction fields with
  | nil => simp [extent]
  | cons e rest ih =>
    obtain ⟨name, value⟩ := e
    simp [extent] at ih ⊢
    omega

theorem extent_zip_le_sizeOf (names : List String) (items : List Json) :
    extent (names.zip items) ≤ sizeOf items := by
  induction items generalizing names with
  | nil => simp [extent]
  | cons item rest ih =>
    cases names with
    | nil =>
      rw [List.zip_nil_left, extent, List.cons.sizeOf_spec]
      omega
    | cons name names =>
      have := ih names
      simp [extent] at this ⊢
      omega

/-- An optional keyword: absent if it is missing or null, else it has to be readable. -/
def optional {α : Type} (fields : List (String × Json)) (key : String)
    (read? : Json → Option α) : Option (Option α) :=
  match fields.lookup key with
  | none => some none
  | some .null => some none
  | some v => (read? v).map some

/-- A keyword with a default value; null is not admissible. -/
def defaulted {α : Type} (fields : List (String × Json)) (key : String) (absent : α)
    (read? : Json → Option α) : Option α :=
  match fields.lookup key with
  | none => some absent
  | some v => read? v

/-- `optional` for a reader that goes on inside the value, which is smaller than the members. -/
def optionalWithin {α : Type} (fields : List (String × Json)) (key : String)
    (read? : (v : Json) → sizeOf v < extent fields → Option α) : Option (Option α) :=
  match h : fields.lookup key with
  | none => some none
  | some .null => some none
  | some v => (read? v (sizeOf_lt_of_lookup h)).map some

/-- `defaulted` for a reader that goes on inside the value. -/
def defaultedWithin {α : Type} (fields : List (String × Json)) (key : String) (absent : α)
    (read? : (v : Json) → sizeOf v < extent fields → Option α) : Option α :=
  match h : fields.lookup key with
  | none => some absent
  | some v => read? v (sizeOf_lt_of_lookup h)

def num? : Json → Option Number
  | .num n => some n
  | _ => none

/-- A whole number that is not negative. -/
def count? : Json → Option Nat
  | .num (.int n) => if 0 ≤ n then some n.toNat else none
  | _ => none

def strings? (v : Json) : Option (List String) := v.arr?.bind fun items => items.mapM str?

def namedStrings? (v : Json) : Option (List (String × String)) :=
  v.obj?.bind fun fields => fields.mapM fun e => (str? e.2).map fun s => (e.1, s)

end Json

open Json

/-- A type name is a string, or the only member of an object, with null as its value. -/
def SchemaType.read? : Json → Option SchemaType
  | .str name => SchemaType.ofName? name
  | .obj [(name, .null)] => SchemaType.ofName? name
  | _ => none

def TypeSet.read? (v : Json) : Option TypeSet :=
  match SchemaType.read? v with
  | some type => some (.single type)
  | none => (v.arr?.bind fun items => items.mapM SchemaType.read?).map .multiple

/-- An object, or a list that has the property name first and the mapping second. -/
def Discriminator.read? : Json → Option Discriminator
  | .obj fields => do
    let propertyName ← (fields.lookup "propertyName").bind str?
    let mapping ← defaulted fields "mapping" [] namedStrings?
    some ⟨propertyName, mapping⟩
  | .arr [name] => (str? name).map fun name => ⟨name, []⟩
  | .arr [name, mapping] => do
    let name ← str? name
    let mapping ← namedStrings? mapping
    some ⟨name, mapping⟩
  | _ => none

def ExclusiveBound.read? : Json → Option ExclusiveBound
  | .bool b => some (.flag b)
  | .num n => some (.value n)
  | _ => none

/-- The keywords, in the order in which a list has their values. -/
def Schema.keywords : List String :=
  ["type", "format", "title", "description", "properties", "required", "allOf", "oneOf", "anyOf",
    "discriminator", "additionalProperties", "items", "nullable", "default", "enum", "pattern",
    "minLength", "maxLength", "minimum", "maximum", "exclusiveMinimum", "exclusiveMaximum",
    "minItems", "maxItems", "uniqueItems"]

mutual

def Node.read? (v : Json) : Option Node :=
  match v with
  | .obj fields =>
    match fields.lookup "$ref" with
    | some (.str path) => some (.ref path)
    | _ => (Schema.read? fields).map .schema
  | .arr items =>
    if items.length = Schema.keywords.length then
      (Schema.read? (Schema.keywords.zip items)).map .schema
    else none
  | _ => none
termination_by (sizeOf v, 0)
decreasing_by
  · apply Prod.Lex.left
    have := extent_le_sizeOf fields
    rw [Json.obj.sizeOf_spec]
    omega
  · apply Prod.Lex.left
    have := extent_zip_le_sizeOf Schema.keywords items
    rw [Json.arr.sizeOf_spec]
    omega

def Node.readItems? (items : List Json) : Option (List Node) :=
  match items with
  | [] => some []
  | item :: rest => do
    let node ← Node.read? item
    let nodes ← Node.readItems? rest
    some (node :: nodes)
termination_by (sizeOf items, 0)
decreasing_by
  all_goals
    apply Prod.Lex.left
    simp only [List.cons.sizeOf_spec]
    omega

def Node.readList? (v : Json) : Option (List Node) :=
  match v with
  | .arr items => Node.readItems? items
  | _ => none
termination_by (sizeOf v, 0)
decreasing_by
  apply Prod.Lex.left
  simp

def Node.readFields? (fields : List (String × Json)) : Option (List (String × Node)) :=
  match fields with
  | [] => some []
  | (key, value) :: rest => do
    let node ← Node.read? value
    let nodes ← Node.readFields? rest
    some ((key, node) :: nodes)
termination_by (sizeOf fields, 0)
decreasing_by
  all_goals
    apply Prod.Lex.left
    simp only [List.cons.sizeOf_spec, Prod.mk.sizeOf_spec]
    omega

def Node.readMap? (v : Json) : Option (List (String × Node)) :=
  match v with
  | .obj fields => Node.readFields? fields
  | _ => none
termination_by (sizeOf v, 0)
decreasing_by
  apply Prod.Lex.left
  simp

def Additional.read? (v : Json) : Option Additional :=
  match v with
  | .bool b => some (.flag b)
  | v => (Node.read? v).map .values
termination_by (sizeOf v, 1)
decreasing_by
  apply Prod.Lex.right
  omega

/-- Reads a schema from its members. -/
def Schema.read? (fields : List (String × Json)) : Option Schema := do
  let type ← optional fields "type" TypeSet.read?
  let format ← optional fields "format" str?
  let title ← optional fields "title" str?
  let description ← optional fields "description" str?
  let properties ← defaultedWithin fields "properties" [] fun v _ => Node.readMap? v
  let required ← defaulted fields "required" [] strings?
  let allOf ← defaultedWithin fields "allOf" [] fun v _ => Node.readList? v
  let oneOf ← defaultedWithin fields "oneOf" [] fun v _ => Node.readList? v
  let anyOf ← defaultedWithin fields "anyOf" [] fun v _ => Node.readList? v
  let discriminator ← optional fields "discriminator" Discriminator.read?
  let additional ← optionalWithin fields "additionalProperties" fun v _ => Additional.read? v
  let items ← optionalWithin fields "items" fun v _ => Node.read? v
  let nullable ← optional fields "nullable" bool?
  let default ← optional fields "default" some
  let enum ← defaulted fields "enum" [] arr?
  let pattern ← optional fields "pattern" str?
  let minLength ← optional fields "minLength" count?
  let maxLength ← optional fields "maxLength" count?
  let minimum ← optional fields "minimum" num?
  let maximum ← optional fields "maximum" num?
  let exclusiveMinimum ← optional fields "exclusiveMinimum" ExclusiveBound.read?
  let exclusiveMaximum ← optional fields "exclusiveMaximum" ExclusiveBound.read?
  let minItems ← optional fields "minItems" count?
  let maxItems ← optional fields "maxItems" count?
  let uniqueItems ← optional fields "uniqueItems" bool?
  some {
    type, format, title, description, properties, required, allOf, oneOf, anyOf, discriminator,
    additional, items, nullable, default, enum, pattern, minLength, maxLength, minimum, maximum,
    exclusiveMinimum, exclusiveMaximum, minItems, maxItems, uniqueItems }
termination_by (extent fields, 0)
decreasing_by
  all_goals
    apply Prod.Lex.left
    assumption

end

/-- Why a document cannot be read. -/
inductive DocumentError where
  | notJson
  | notYaml
  | noJsonForm
  | unsupportedVersion (version : String)
  | missingInfo
  | invalidInfo
  | wrongKind (path : String) (found : Json) (expected : String)
  | tooManyParts (length : Nat)
  | invalidSchema (path : String)

namespace DocumentError

/-- The characters of a string as they are shown between quotes in an error. -/
def shownChar (c : Char) : List Char :=
  if c = '"' then ['\\', '"']
  else if c = '\\' then ['\\', '\\']
  else if c = '\n' then ['\\', 'n']
  else if c = '\r' then ['\\', 'r']
  else if c = '\t' then ['\\', 't']
  else if c = '\x00' then ['\\', '0']
  else if c.toNat < 0x20 || (0x7F ≤ c.toNat && c.toNat ≤ 0x9F) then
    "\\u\x7b".toList ++ Nat.toDigits 16 c.toNat ++ ['\x7d']
  else [c]

def kind : Json → String
  | .null => "null"
  | .bool b => s!"boolean \x60{b}\x60"
  | .num (.int n) => s!"integer \x60{n}\x60"
  | .num (.double x) => s!"floating point \x60{x.text}\x60"
  | .str s => "string \"" ++ String.ofList (s.toList.flatMap shownChar) ++ "\""
  | .arr _ => "sequence"
  | .obj _ => "map"

def message : DocumentError → String
  | notJson => "document is not valid JSON"
  | notYaml => "document is not valid YAML"
  | noJsonForm => "YAML document cannot be represented as JSON"
  | unsupportedVersion version => s!"unsupported OpenAPI version '{version}': expected 3.x"
  | missingInfo => "document has no 'info' object"
  | invalidInfo => "invalid 'info' object"
  | wrongKind path found expected =>
    s!"invalid schema at {path}: invalid type: {kind found}, expected {expected}"
  | tooManyParts length =>
    s!"invalid schema at components: invalid length {length}, expected fewer elements in array"
  | invalidSchema path =>
    s!"invalid schema at {path}: data did not match any variant of untagged enum SchemaOrRef"

end DocumentError

/-- The nodes under `schemas`, which is found at `path`; the first malformed one is reported. -/
def readComponents (path : String) : List (String × Json) →
    Except DocumentError (List (String × Node))
  | [] => .ok []
  | (name, v) :: rest =>
    match Node.read? v with
    | none => .error (.invalidSchema s!"{path}.{name}")
    | some node => (readComponents path rest).map fun nodes => (name, node) :: nodes

def readSchemas (path : String) : Json → Except DocumentError (List (String × Node))
  | .obj fields => readComponents path fields
  | v => .error (.wrongKind path v "a map")

/-- The component schemas: an object with the member `schemas`, or a list whose only item stands
for that member. -/
def readComponentsPart : Json → Except DocumentError (List (String × Node))
  | .obj fields =>
    match fields.lookup "schemas" with
    | none => .ok []
    | some v => readSchemas "components.schemas" v
  | .arr [] => .ok []
  | .arr (v :: rest) => do
    let nodes ← readSchemas "components[0]" v
    if rest.isEmpty then .ok nodes else .error (.tooManyParts (rest.length + 1))
  | v => .error (.wrongKind "components" v "struct Components")

namespace Document

def versionOf (v : Json) : String := ((v.get? "openapi").bind str?).getD ""

def readHeader [Libraries] (v : Json) : Except DocumentError Info :=
  match v.get? "info" with
  | none => .error .missingInfo
  | some info =>
    match Libraries.info? info with
    | none => .error .invalidInfo
    | some info => .ok info

def readNodes (v : Json) : Except DocumentError (List (String × Node)) :=
  match v.get? "components" with
  | none => .ok []
  | some components => readComponentsPart components

def read [Libraries] (v : Json) : Except DocumentError Document := do
  let version := versionOf v
  if !version.startsWith "3." then .error (.unsupportedVersion version)
  let info ← readHeader v
  let nodes ← readNodes v
  .ok ⟨version, info, firstOfEach nodes, firstOfEach_nodup nodes⟩

end Document

end SchemaModel
