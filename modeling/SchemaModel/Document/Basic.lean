import SchemaModel.Json.Basic

/-!
Schema documents. A node is a reference or a schema, and a schema is a set of keywords, some of
which hold nodes again. A document is its header and its named component schemas.

The lemmas `sizeOf_lt_of_mem_allOf` and the like say that a node inside a schema is smaller than
the schema; every walk over nodes ends because of them.
-/

namespace SchemaModel

inductive SchemaType where
  | string
  | integer
  | number
  | boolean
  | object
  | array
  | null
deriving DecidableEq, Repr, Inhabited

namespace SchemaType

def name : SchemaType → String
  | string => "string"
  | integer => "integer"
  | number => "number"
  | boolean => "boolean"
  | object => "object"
  | array => "array"
  | null => "null"

def all : List SchemaType := [string, integer, number, boolean, object, array, null]

def ofName? (text : String) : Option SchemaType := all.find? fun t => t.name == text

end SchemaType

/-- The keyword `type`: one name, or a list of names any of which is allowed. -/
inductive TypeSet where
  | single (type : SchemaType)
  | multiple (types : List SchemaType)
deriving DecidableEq, Repr

/-- The keyword `discriminator`; the mapping goes from values to schemas. -/
structure Discriminator where
  propertyName : String
  mapping : List (String × String)
deriving DecidableEq, Repr

/-- The keywords `exclusiveMinimum` and `exclusiveMaximum`: a flag that sharpens the bound beside
it, or a bound of its own. -/
inductive ExclusiveBound where
  | flag (exclusive : Bool)
  | value (bound : Number)
deriving DecidableEq, Repr

mutual

inductive Node where
  | ref (path : String)
  | schema (schema : Schema)

/-- The keyword `additionalProperties`. -/
inductive Additional where
  | flag (allowed : Bool)
  | values (node : Node)

structure Schema where
  type : Option TypeSet
  format : Option String
  title : Option String
  description : Option String
  properties : List (String × Node)
  required : List String
  allOf : List Node
  oneOf : List Node
  anyOf : List Node
  discriminator : Option Discriminator
  additional : Option Additional
  items : Option Node
  nullable : Option Bool
  default : Option Json
  enum : List Json
  pattern : Option String
  minLength : Option Nat
  maxLength : Option Nat
  minimum : Option Number
  maximum : Option Number
  exclusiveMinimum : Option ExclusiveBound
  exclusiveMaximum : Option ExclusiveBound
  minItems : Option Nat
  maxItems : Option Nat
  uniqueItems : Option Bool

end

namespace Schema

/-- The schema without keywords. -/
def empty : Schema where
  type := none
  format := none
  title := none
  description := none
  properties := []
  required := []
  allOf := []
  oneOf := []
  anyOf := []
  discriminator := none
  additional := none
  items := none
  nullable := none
  default := none
  enum := []
  pattern := none
  minLength := none
  maxLength := none
  minimum := none
  maximum := none
  exclusiveMinimum := none
  exclusiveMaximum := none
  minItems := none
  maxItems := none
  uniqueItems := none

instance : Inhabited Schema := ⟨empty⟩

theorem sizeOf_lt_of_mem_allOf {s : Schema} {n : Node} (h : n ∈ s.allOf) :
    sizeOf n < sizeOf s := by
  have := List.sizeOf_lt_of_mem h
  cases s
  simp at this ⊢
  omega

theorem sizeOf_allOf_lt (s : Schema) : sizeOf s.allOf < sizeOf s := by
  cases s
  simp
  omega

theorem sizeOf_lt_of_mem_oneOf {s : Schema} {n : Node} (h : n ∈ s.oneOf) :
    sizeOf n < sizeOf s := by
  have := List.sizeOf_lt_of_mem h
  cases s
  simp at this ⊢
  omega

theorem sizeOf_lt_of_mem_anyOf {s : Schema} {n : Node} (h : n ∈ s.anyOf) :
    sizeOf n < sizeOf s := by
  have := List.sizeOf_lt_of_mem h
  cases s
  simp at this ⊢
  omega

theorem sizeOf_lt_of_items {s : Schema} {n : Node} (h : s.items = some n) :
    sizeOf n < sizeOf s := by
  cases s
  simp at h ⊢
  subst h
  simp
  omega

theorem sizeOf_lt_of_additional {s : Schema} {n : Node}
    (h : s.additional = some (.values n)) : sizeOf n < sizeOf s := by
  cases s
  simp at h ⊢
  subst h
  simp
  omega

theorem sizeOf_lt_of_mem_properties {s : Schema} {key : String} {n : Node}
    (h : (key, n) ∈ s.properties) : sizeOf n < sizeOf s := by
  have := List.sizeOf_lt_of_mem h
  cases s
  simp at this ⊢
  omega

end Schema

structure Info where
  title : String
  version : String
  description : Option String
deriving DecidableEq, Repr, Inhabited

/-- A document: its version and header, and its component schemas in declaration order. No two
components have the same name. -/
structure Document where
  version : String
  info : Info
  components : List (String × Node)
  distinct : (components.map Prod.fst).Nodup

namespace Document

def names (d : Document) : List String := d.components.map Prod.fst

def find? (d : Document) (name : String) : Option Node := d.components.lookup name

end Document

/-- The first entry of each name. -/
def firstOfEach {α : Type} : List (String × α) → List (String × α)
  | [] => []
  | (name, value) :: rest => (name, value) :: (firstOfEach rest).filter fun e => e.1 != name

theorem firstOfEach_nodup {α : Type} (entries : List (String × α)) :
    ((firstOfEach entries).map Prod.fst).Nodup := by
  induction entries with
  | nil => exact List.nodup_nil
  | cons e rest ih =>
    obtain ⟨name, value⟩ := e
    simp only [firstOfEach, List.map_cons, List.nodup_cons, List.mem_map, List.mem_filter,
      not_exists, not_and, and_imp]
    refine ⟨fun e _ hne heq => by simp [heq] at hne, ?_⟩
    exact ih.sublist (List.Sublist.map _ List.filter_sublist)

end SchemaModel
