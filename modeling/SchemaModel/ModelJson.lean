import SchemaModel.Build
import SchemaModel.Document.Reader

/-!
The JSON form of a model and of its parts. Members that would be empty are left out.
-/

namespace SchemaModel

namespace Json

/-- A member that is left out if there is no value. -/
def given {α : Type} (key : String) (value : Option α) (f : α → Json) : List (String × Json) :=
  match value with
  | none => []
  | some a => [(key, f a)]

/-- A list that is left out if it is empty. -/
def listed (key : String) (items : List Json) : List (String × Json) :=
  if items.isEmpty then [] else [(key, .arr items)]

end Json

namespace TypeRef

def toJson : TypeRef → Json
  | primitive type => .obj [("type", .str "primitive"), ("of", .str type.name)]
  | named name => .obj [("type", .str "named"), ("of", .str name)]
  | array items => .obj [("type", .str "array"), ("of", items.toJson)]
  | map values => .obj [("type", .str "map"), ("of", values.toJson)]

end TypeRef

def EnumMember.toJson (m : EnumMember) : Json :=
  .obj [("value", m.value), ("constant", .str m.constant)]

def EnumDescriptor.fields (e : EnumDescriptor) : List (String × Json) :=
  [("base", .str e.base.name), ("members", .arr (e.members.map EnumMember.toJson))]

def EnumDescriptor.toJson (e : EnumDescriptor) : Json := .obj e.fields

def DiscriminatorKey.toJson : DiscriminatorKey → Json
  | enumKey value constant =>
    .obj [("type", .str "enum_key"), ("value", .str value), ("constant", .str constant)]
  | stringKey value => .obj [("type", .str "string_key"), ("value", .str value)]

def keysToJson (keys : List DiscriminatorKey) : Json := .arr (keys.map DiscriminatorKey.toJson)

namespace DiscriminatorDescriptor

def fields (d : DiscriminatorDescriptor) : List (String × Json) :=
  [("property", .str d.property)] ++ Json.given "enum_type" d.enumType .str ++
    [("subtype_keys", .obj (d.subtypeKeys.toList.map fun e => (e.1, keysToJson e.2)))]

def toJson (d : DiscriminatorDescriptor) : Json := .obj d.fields

end DiscriminatorDescriptor

def NumericBound.toJson (b : NumericBound) : Json :=
  .obj [("value", .num b.value), ("exclusive", .bool b.exclusive)]

def PropertyKind.toJson : PropertyKind → Json
  | field c => .obj ([("variant", .str "field")] ++ Json.given "pattern" c.pattern .str ++
      Json.given "min_length" c.minLength .nat ++ Json.given "max_length" c.maxLength .nat ++
      Json.given "minimum" c.minimum NumericBound.toJson ++
      Json.given "maximum" c.maximum NumericBound.toJson)
  | objectRef target => .obj [("variant", .str "object_ref_field"), ("target", .str target)]
  | objectInlined target =>
    .obj [("variant", .str "object_inlined_field"), ("target", .str target)]
  | collection c => .obj ([("variant", .str "collection_validation")] ++
      Json.given "min_items" c.minItems .nat ++ Json.given "max_items" c.maxItems .nat ++
      [("unique_items", .bool c.uniqueItems)])
  | map => .obj [("variant", .str "map_field")]
  | additionalCapture => .obj [("variant", .str "additional_properties_capture")]

def Check.toJson : Check → Json
  | notNull => .obj [("annotation", .str "not_null")]
  | valid => .obj [("annotation", .str "valid")]
  | pattern regexp => .obj [("annotation", .str "pattern"), ("regexp", .str regexp)]
  | size min max => .obj [("annotation", .str "size"), ("min", .ofOption .nat min),
      ("max", .ofOption .nat max)]
  | decimalMin value inclusive => .obj [("annotation", .str "decimal_min"),
      ("value", .str value), ("inclusive", .bool inclusive)]
  | decimalMax value inclusive => .obj [("annotation", .str "decimal_max"),
      ("value", .str value), ("inclusive", .bool inclusive)]

def PropertyDescriptor.toJson (p : PropertyDescriptor) : Json :=
  .obj ([("oas_key", .str p.key), ("kind", p.kind.toJson), ("type_ref", p.type.toJson),
      ("is_required", .bool p.isRequired), ("is_nullable", .bool p.isNullable),
      ("has_default", .bool p.hasDefault)] ++
    Json.given "default_literal" p.default (fun d => .str d.text) ++
    [("is_polymorphic_discriminator", .bool p.isDiscriminator),
      ("is_inherited", .bool p.isInherited)] ++
    Json.listed "discriminator_mappings" (p.mappings.map DiscriminatorKey.toJson) ++
    [("modifier", .str p.modifier.name), ("wrapping", .str p.wrapping.name),
      ("mandatory", .bool p.mandatory)] ++
    Json.listed "annotations" (p.checks.map Check.toJson) ++
    Json.given "description" p.description .str)

def SchemaKind.fields : SchemaKind → List (String × Json)
  | primitive type => [("kind", .str "primitive"), ("primitive", .str type.name)]
  | enum e => ("kind", .str "enum") :: e.fields
  | objectSingle => [("kind", .str "object_single")]
  | objectSuper d => ("kind", .str "object_polymorphic_super") :: d.fields
  | objectSub => [("kind", .str "object_polymorphic_sub")]
  | arrayOf items => [("kind", .str "array_of"), ("items", items.toJson)]
  | mapOf values => [("kind", .str "map_of"), ("values", values.toJson)]

def SchemaDescriptor.toJson (d : SchemaDescriptor) : Json :=
  .obj ([("name", .str d.name), ("pointer", .str d.pointer)] ++ d.kind.fields ++
    Json.listed "properties" (d.properties.map PropertyDescriptor.toJson) ++
    Json.given "supertype" d.supertype .str ++
    Json.listed "subtypes" (d.subtypes.keys.map .str) ++
    Json.given "description" d.description .str ++ [("inline", .bool d.inline)])

def aliasesToJson (aliases : NameMap String) : Json :=
  .obj (aliases.toList.map fun e => (e.1, .str e.2))

def TypeModel.toJson (m : TypeModel) : Json :=
  .obj ([("schemas", .obj (m.schemas.toList.map fun e => (e.1, e.2.toJson)))] ++
    if m.aliases.toList.isEmpty then [] else [("aliases", aliasesToJson m.aliases)])

def Config.toJson (c : Config) : Json :=
  .obj [("merge_patch", .bool c.mergePatch), ("validation_dialect", .str c.dialect.name),
    ("discriminator_policy", .str c.policy.name)]

def Info.toJson (i : Info) : Json :=
  .obj ([("title", .str i.title), ("version", .str i.version)] ++
    Json.given "description" i.description .str)

/-- The file that holds a model: where the document came from, its header, the options and the
model. -/
def modelFile (source : String) (info : Info) (config : Config) (model : TypeModel) : Json :=
  .obj [("source", .str source), ("info", info.toJson), ("config", config.toJson),
    ("model", model.toJson)]

/-- Builds the model of a document and its file, as text. -/
def Document.buildFile [Libraries] (d : Document) (config : Config) (source : String) :
    Except Stop (String × Stats) := do
  let built ← d.build config
  return ((modelFile source d.info config built.model).pretty, built.stats)

end SchemaModel
