import SchemaModel.Proofs.Denotes
import SchemaModel.Proofs.Traced

/-!
A literal made from a declared default inhabits the type for which it was made
(`coerce_inhabits`).
-/

namespace SchemaModel

/-- A literal that denotes one value by itself. -/
def Literal.isScalar : Literal → Bool
  | .enumMember _ _ => false
  | .emptyList => false
  | .emptyMap => false
  | _ => true

/-- The literals of a type; `enums` gives the enums by name. -/
inductive Literal.Inhabits (enums : String → Option EnumDescriptor) : Literal → TypeRef → Prop where
  | enumMember {name : String} {e : EnumDescriptor} {m : EnumMember} (enum : enums name = some e)
      (mem : m ∈ e.members) : Inhabits enums (.enumMember name m.constant) (.named name)
  | emptyList {items : TypeRef} : Inhabits enums .emptyList (.array items)
  | emptyMap {values : TypeRef} : Inhabits enums .emptyMap (.map values)
  | int {n : Int} (low : -2147483648 ≤ n) (high : n ≤ 2147483647) :
      Inhabits enums (.int n) (.primitive .int32)
  | long {n : Int} (low : -9223372036854775808 ≤ n) (high : n ≤ 9223372036854775807) :
      Inhabits enums (.long n) (.primitive .int64)
  | float {digits : String} : Inhabits enums (.float digits) (.primitive .float)
  | double {digits : String} : Inhabits enums (.double digits) (.primitive .double)
  | decimal {digits : String} : Inhabits enums (.decimal digits) (.primitive .decimal)
  | boolean {value : Bool} : Inhabits enums (.boolean value) (.primitive .boolean)
  | string {value : String} : Inhabits enums (.string value) (.primitive .string)
  | email {value : String} : Inhabits enums (.string value) (.primitive .email)
  | date {text : String} : Inhabits enums (.date text) (.primitive .date)
  | dateTime {text : String} : Inhabits enums (.dateTime text) (.primitive .dateTime)
  | uuid {text : String} : Inhabits enums (.uuid text) (.primitive .uuid)
  | uri {text : String} : Inhabits enums (.uri text) (.primitive .uri)
  | untyped {literal : Literal} (scalar : literal.isScalar) :
      Inhabits enums literal (.primitive .untyped)

variable {enums : String → Option EnumDescriptor}

theorem Literal.Inhabits.type_eq {name constant : String} {type : TypeRef}
    (h : (Literal.enumMember name constant).Inhabits enums type) : type = .named name := by
  cases h with
  | enumMember enum mem => rfl
  | untyped scalar => cases scalar

variable [Libraries]

/-- What denotes a default is a literal of the type. -/
theorem Json.Denotes.inhabits {v : Json} {type : Primitive} {literal : Literal}
    (h : v.Denotes type literal) : literal.Inhabits enums (.primitive type) := by
  induction h with
  | string => exact .string
  | stringOfNumber => exact .string
  | stringOfFlag => exact .string
  | email string ih =>
    cases string <;> exact .email
  | uri => exact .uri
  | uuid => exact .uuid
  | date => exact .date
  | dateTime => exact .dateTime
  | int32 whole low high => exact .int low high
  | int64 whole low high => exact .long low high
  | float => exact .float
  | double => exact .double
  | decimal => exact .decimal
  | boolean => exact .boolean
  | booleanOfTrue => exact .boolean
  | booleanOfFalse => exact .boolean
  | untypedText => exact .untyped rfl
  | untypedFlag => exact .untyped rfl
  | untypedWhole => exact .untyped rfl
  | untypedNumber => exact .untyped rfl

namespace Graph

variable {g : Graph}

/-- The enum of a name. -/
def enum? (g : Graph) (name : String) : Option EnumDescriptor :=
  (g.schemas.find? name).bind fun s => s.shape.enum?

omit [Libraries] in
/-- The enum that a type names is the enum of the name, aliases aside. -/
theorem enumOf?_eq_some {type : TypeRef} {name : String} {e : EnumDescriptor}
    (h : g.enumOf? type = some (name, e)) :
    type = .named name ∧ g.enum? (g.canonical name) = some e := by
  unfold enumOf? at h
  obtain ⟨other, ho, h⟩ := Option.bind_eq_some_iff.1 h
  obtain ⟨s, hs, h⟩ := Option.bind_eq_some_iff.1 h
  obtain ⟨e', he, h⟩ := Option.bind_eq_some_iff.1 h
  cases h
  refine ⟨?_, ?_⟩
  · cases type with
    | named other => cases ho; rfl
    | primitive type => cases ho
    | array items => cases ho
    | map values => cases ho
  · rw [get?] at hs
    rw [enum?, hs]
    exact he

omit [Libraries] in
theorem ignoreDefault_ne_ok {schema property reason : String} {literal : Literal} :
    (ignoreDefault schema property reason).outcome ≠ .ok (some literal) := by
  intro h
  cases h

/-- A literal made from a declared default inhabits the type for which it was made. -/
theorem coerceValue_inhabits {schema property : String} {type : TypeRef} {v : Json}
    {literal : Literal} (hc : ∀ name, type = .named name → g.canonical name = name)
    (h : (g.coerceValue schema property type v).outcome = .ok (some literal)) :
    literal.Inhabits g.enum? type := by
  unfold coerceValue at h
  cases type with
  | named name =>
    simp only at h
    cases he : g.enumOf? (.named name) with
    | none =>
      simp only [he] at h
      exact absurd h ignoreDefault_ne_ok
    | some found =>
      obtain ⟨other, e⟩ := found
      simp only [he] at h
      obtain ⟨ht, henum⟩ := enumOf?_eq_some he
      cases ht
      -- a type names no alias, so its enum is that of the very name
      rw [hc name rfl] at henum
      split at h
      · rename_i m hm
        cases h
        exact .enumMember henum (List.mem_of_find?_eq_some hm)
      · cases h
  | array items =>
    simp only at h
    split at h
    · cases h
      exact .emptyList
    · exact absurd h ignoreDefault_ne_ok
  | map values =>
    simp only at h
    split at h
    · cases h
      exact .emptyMap
    · exact absurd h ignoreDefault_ne_ok
  | primitive primitive =>
    simp only at h
    split at h
    · exact absurd h ignoreDefault_ne_ok
    · split at h
      · rename_i found hf
        cases h
        exact (coercePrimitive_eq_some_iff.1 hf).inhabits
      · cases h

/-- A default of a scalar property becomes a literal exactly if the literal denotes it. -/
theorem coerce_scalar_iff {schema : String} {p : ResolvedProperty} {type : Primitive} {v : Json}
    {literal : Literal} (ht : p.type = .primitive type) (hv : p.default = some v) :
    (g.coerce schema p).outcome = .ok (some literal) ↔ v.Denotes type literal := by
  rw [← coercePrimitive_eq_some_iff]
  have hscalar : (g.coerceValue schema p.key (.primitive type) v).outcome = .ok (some literal) ↔
      coercePrimitive type v = some literal := by
    unfold coerceValue
    dsimp only
    split
    · rename_i hbinary
      refine iff_of_false ignoreDefault_ne_ok fun h => ?_
      rw [Bool.or_eq_true, decide_eq_true_eq, decide_eq_true_eq] at hbinary
      exact Json.not_denotes_of_binary hbinary literal (coercePrimitive_eq_some_iff.1 h)
    · split
      · rename_i found hfound
        rw [hfound]
        constructor
        · rintro ⟨⟩
          rfl
        · rintro ⟨⟩
          rfl
      · rename_i hnone
        rw [hnone]
        exact iff_of_false nofun nofun
  unfold coerce
  rw [hv, ht]
  cases v with
  | null =>
    refine iff_of_false nofun fun h => ?_
    cases type <;> cases h
  | _ => exact hscalar

theorem coerce_inhabits {schema : String} {p : ResolvedProperty} {literal : Literal}
    (hc : ∀ name, p.type = .named name → g.canonical name = name)
    (h : (g.coerce schema p).outcome = .ok (some literal)) : literal.Inhabits g.enum? p.type := by
  unfold coerce at h
  split at h
  · cases h
  · cases h
  · exact coerceValue_inhabits hc h

end Graph

end SchemaModel
