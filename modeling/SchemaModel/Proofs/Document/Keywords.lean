import SchemaModel.Document.Reader

/-!
What a schema is read from. Each keyword is read on its own, from the value that the members have
for it (`Schema.readFrom_of_read?`), and a schema is read exactly if every keyword is
(`Schema.read?_isSome_iff`).
-/

namespace SchemaModel

open Json

/-- The kinds of values that keywords have. -/
inductive Kind where
  | type
  | text
  | flag
  | count
  | number
  | bound
  | any
  | discriminator
  | names
  | values
  | node
  | additional
  | nodes
  | namedNodes
deriving DecidableEq

namespace Kind

/-- Keywords of these kinds are absent if they are null. -/
def isNullable : Kind → Bool
  | names => false
  | values => false
  | nodes => false
  | namedNodes => false
  | _ => true

/-- Values of these kinds have nodes inside. -/
def holdsNodes : Kind → Bool
  | node => true
  | additional => true
  | nodes => true
  | namedNodes => true
  | _ => false

/-- Whether a value that is present can be read. -/
def isRead : Kind → Json → Bool
  | type, v => v.isNull || (TypeSet.read? v).isSome
  | text, v => v.isNull || (str? v).isSome
  | flag, v => v.isNull || (bool? v).isSome
  | count, v => v.isNull || (count? v).isSome
  | number, v => v.isNull || (num? v).isSome
  | bound, v => v.isNull || (ExclusiveBound.read? v).isSome
  | any, _ => true
  | discriminator, v => v.isNull || (Discriminator.read? v).isSome
  | names, v => (strings? v).isSome
  | values, v => (arr? v).isSome
  | node, v => v.isNull || (Node.read? v).isSome
  | additional, v => v.isNull || (Additional.read? v).isSome
  | nodes, v => (Node.readList? v).isSome
  | namedNodes, v => (Node.readMap? v).isSome

end Kind

/-- The keywords with the kinds of their values. -/
def Schema.grammar : List (String × Kind) :=
  [("type", .type), ("format", .text), ("title", .text), ("description", .text),
    ("properties", .namedNodes), ("required", .names), ("allOf", .nodes), ("oneOf", .nodes),
    ("anyOf", .nodes), ("discriminator", .discriminator), ("additionalProperties", .additional),
    ("items", .node), ("nullable", .flag), ("default", .any), ("enum", .values),
    ("pattern", .text), ("minLength", .count), ("maxLength", .count), ("minimum", .number),
    ("maximum", .number), ("exclusiveMinimum", .bound), ("exclusiveMaximum", .bound),
    ("minItems", .count), ("maxItems", .count), ("uniqueItems", .flag)]

theorem Schema.map_fst_grammar : grammar.map Prod.fst = keywords := rfl

namespace Json

variable {α : Type} {fields other : List (String × Json)} {key : String}

theorem optionalWithin_eq (read? : Json → Option α) :
    (optionalWithin fields key fun v _ => read? v) = optional fields key read? := by
  unfold optionalWithin optional
  split <;> rename_i h <;> simp [h]

theorem defaultedWithin_eq (absent : α) (read? : Json → Option α) :
    (defaultedWithin fields key absent fun v _ => read? v) = defaulted fields key absent read? := by
  unfold defaultedWithin defaulted
  split <;> rename_i h <;> simp [h]

theorem isSome_optional {read? : Json → Option α} : (optional fields key read?).isSome ↔
    ∀ v, fields.lookup key = some v → v.isNull || (read? v).isSome := by
  unfold optional
  split <;> rename_i h <;> rw [h]
  · simp
  · simp [isNull]
  · rename_i v hnull
    cases v <;> simp_all [isNull]

theorem isSome_optional_some : (optional fields key some).isSome := by
  rw [isSome_optional]
  simp

theorem isSome_defaulted {absent : α} {read? : Json → Option α} :
    (defaulted fields key absent read?).isSome ↔
      ∀ v, fields.lookup key = some v → (read? v).isSome := by
  unfold defaulted
  split <;> rename_i h <;> rw [h] <;> simp

theorem any_const (x : Option α) (b : Bool) : x.any (fun _ => b) = (x.isSome && b) := by
  cases x <;> rfl

theorem any_isSome_str? : ((fields.lookup key).any fun v => (str? v).isSome) ↔
    ∃ text, fields.lookup key = some (.str text) := by
  cases fields.lookup key with
  | none => simp
  | some v => cases v <;> simp [str?]

theorem optional_congr {read? : Json → Option α} (h : fields.lookup key = other.lookup key) :
    optional fields key read? = optional other key read? := by
  rw [optional, optional, h]

theorem defaulted_congr {absent : α} {read? : Json → Option α}
    (h : fields.lookup key = other.lookup key) :
    defaulted fields key absent read? = defaulted other key absent read? := by
  rw [defaulted, defaulted, h]

end Json

/-- The keywords of a schema are what is read from the members. -/
structure Schema.ReadFrom (fields : List (String × Json)) (s : Schema) : Prop where
  type : optional fields "type" TypeSet.read? = some s.type
  format : optional fields "format" str? = some s.format
  title : optional fields "title" str? = some s.title
  description : optional fields "description" str? = some s.description
  properties : defaulted fields "properties" [] Node.readMap? = some s.properties
  required : defaulted fields "required" [] strings? = some s.required
  allOf : defaulted fields "allOf" [] Node.readList? = some s.allOf
  oneOf : defaulted fields "oneOf" [] Node.readList? = some s.oneOf
  anyOf : defaulted fields "anyOf" [] Node.readList? = some s.anyOf
  discriminator : optional fields "discriminator" Discriminator.read? = some s.discriminator
  additional : optional fields "additionalProperties" Additional.read? = some s.additional
  items : optional fields "items" Node.read? = some s.items
  nullable : optional fields "nullable" bool? = some s.nullable
  default : optional fields "default" some = some s.default
  enum : defaulted fields "enum" [] arr? = some s.enum
  pattern : optional fields "pattern" str? = some s.pattern
  minLength : optional fields "minLength" count? = some s.minLength
  maxLength : optional fields "maxLength" count? = some s.maxLength
  minimum : optional fields "minimum" num? = some s.minimum
  maximum : optional fields "maximum" num? = some s.maximum
  exclusiveMinimum :
    optional fields "exclusiveMinimum" ExclusiveBound.read? = some s.exclusiveMinimum
  exclusiveMaximum :
    optional fields "exclusiveMaximum" ExclusiveBound.read? = some s.exclusiveMaximum
  minItems : optional fields "minItems" count? = some s.minItems
  maxItems : optional fields "maxItems" count? = some s.maxItems
  uniqueItems : optional fields "uniqueItems" bool? = some s.uniqueItems

namespace Schema

variable {fields other : List (String × Json)} {s : Schema}

theorem readFrom_of_read? (h : read? fields = some s) : s.ReadFrom fields := by
  simp only [read?, optionalWithin_eq, defaultedWithin_eq] at h
  -- one keyword after the other
  iterate 25 obtain ⟨_, _, h⟩ := Option.bind_eq_some_iff.1 h
  cases h
  constructor <;> assumption

theorem isSome_bind_iff {α β : Type} {x : Option α} {f : α → Option β} {p q : Prop}
    (hx : x.isSome ↔ p) (hf : ∀ a, (f a).isSome ↔ q) : (x.bind f).isSome ↔ p ∧ q := by
  cases x with
  | none =>
    refine iff_of_false nofun fun h => ?_
    cases hx.2 h.1
  | some a => exact (hf a).trans (and_iff_right (hx.1 rfl)).symm

/-- A schema is read if the values of all keywords are. -/
theorem read?_isSome_iff : (read? fields).isSome ↔
    ∀ e ∈ grammar, ∀ v, fields.lookup e.1 = some v → e.2.isRead v := by
  simp only [grammar, List.forall_mem_cons, read?, optionalWithin_eq, defaultedWithin_eq]
  repeat
    first
    | refine isSome_bind_iff isSome_optional fun _ => ?_
    | refine isSome_bind_iff isSome_defaulted fun _ => ?_
    | refine isSome_bind_iff (iff_of_true isSome_optional_some fun _ _ => rfl) fun _ => ?_
  exact iff_of_true rfl nofun

end Schema

end SchemaModel
