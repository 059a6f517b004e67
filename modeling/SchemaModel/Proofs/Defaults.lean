import Mathlib.Data.List.Nodup
import Mathlib.Data.Option.Basic
import SchemaModel.Proofs.Computed
import SchemaModel.Proofs.Coercion
import SchemaModel.Proofs.Resolve.Enums

/-!
Which defaults become which literals. A default of a scalar type becomes the literal that denotes
the same value, and one that no literal denotes is an error. An enum default becomes the first
member with an equal value, or is an error if there is none. An array or map may be empty by
default; any other default of these, of an object or of binary data is ignored with one warning.
`Graph.Coerces` puts this together and `Graph.coerce_iff` says that coercion does it. The enums of a
document give each constant to one member, so it says which value was meant (`Graph.coerce_exact`).
-/

namespace SchemaModel

section

variable [Libraries]

namespace Graph

/-- What a default other than `null` becomes. -/
inductive CoercesValue (g : Graph) (schema key : String) :
    TypeRef → Json → Traced (Option Literal) → Prop where
  | scalar {type : Primitive} {v : Json} {literal : Literal} (denotes : v.Denotes type literal) :
      CoercesValue g schema key (.primitive type) v ⟨.ok (some literal), []⟩
  | incompatible {type : Primitive} {v : Json} (expressible : type ≠ .byteArray ∧ type ≠ .binary)
      (unfit : ∀ literal, ¬v.Denotes type literal) :
      CoercesValue g schema key (.primitive type) v
        ⟨.error (.incompatibleDefault schema key type.name (Schema.valueText v)), []⟩
  | binary {type : Primitive} {v : Json} (binary : type = .byteArray ∨ type = .binary) :
      CoercesValue g schema key (.primitive type) v
        ⟨.ok none, [.ignoredDefault schema key "binary defaults are not supported"]⟩
  | member {name : String} {e : EnumDescriptor} {before after : List EnumMember} {m : EnumMember}
      {v : Json} (enum : g.enum? (g.canonical name) = some e)
      (members : e.members = before ++ m :: after) (equal : m.value.same v)
      (first : ∀ other ∈ before, other.value.same v = false) :
      CoercesValue g schema key (.named name) v ⟨.ok (some (.enumMember name m.constant)), []⟩
  | unknown {name : String} {e : EnumDescriptor} {v : Json}
      (enum : g.enum? (g.canonical name) = some e)
      (unlisted : ∀ m ∈ e.members, m.value.same v = false) :
      CoercesValue g schema key (.named name) v
        ⟨.error (.unknownEnumDefault schema key name (Schema.valueText v)), []⟩
  | object {name : String} {v : Json} (noEnum : g.enum? (g.canonical name) = none) :
      CoercesValue g schema key (.named name) v
        ⟨.ok none, [.ignoredDefault schema key "object defaults are not supported"]⟩
  | emptyList {items : TypeRef} :
      CoercesValue g schema key (.array items) (.arr []) ⟨.ok (some .emptyList), []⟩
  | array {items : TypeRef} {v : Json} (other : v ≠ .arr []) :
      CoercesValue g schema key (.array items) v
        ⟨.ok none, [.ignoredDefault schema key "only an empty array default is supported"]⟩
  | emptyMap {values : TypeRef} :
      CoercesValue g schema key (.map values) (.obj []) ⟨.ok (some .emptyMap), []⟩
  | map {values : TypeRef} {v : Json} (other : v ≠ .obj []) :
      CoercesValue g schema key (.map values) v
        ⟨.ok none, [.ignoredDefault schema key "only an empty object default is supported"]⟩

/-- What the default of a property becomes. -/
inductive Coerces (g : Graph) (schema : String) (p : ResolvedProperty) :
    Traced (Option Literal) → Prop where
  | absent (absent : p.default = none) : Coerces g schema p ⟨.ok none, []⟩
  | null (null : p.default = some .null) : Coerces g schema p ⟨.ok none, []⟩
  | value {v : Json} {answer : Traced (Option Literal)} (declared : p.default = some v)
      (notNull : v ≠ .null) (value : g.CoercesValue schema p.key p.type v answer) :
      Coerces g schema p answer

variable {g : Graph} {schema key name : String} {type : TypeRef} {v : Json} {e : EnumDescriptor}
  {p : ResolvedProperty} {answer : Traced (Option Literal)}

omit [Libraries] in
theorem enumOf?_named (g : Graph) (name : String) :
    g.enumOf? (.named name) = (g.enum? (g.canonical name)).map fun e => (name, e) := by
  show ((g.schemas.find? (g.canonical name)).bind fun s =>
    s.shape.enum?.bind fun e => some (name, e)) = _
  rw [enum?]
  cases g.schemas.find? (g.canonical name) with
  | none => rfl
  | some s => cases h : s.shape.enum? <;> simp [h]

theorem coercesValue_coerceValue (g : Graph) (schema key : String) (type : TypeRef) (v : Json) :
    g.CoercesValue schema key type v (g.coerceValue schema key type v) := by
  unfold coerceValue
  cases type with
  | named name =>
    simp only [enumOf?_named]
    cases he : g.enum? (g.canonical name) with
    | none => exact .object he
    | some e =>
      simp only [Option.map_some]
      cases hm : e.member? v with
      | none =>
        refine .unknown he fun m hmem => ?_
        simpa using List.find?_eq_none.1 hm m hmem
      | some m =>
        obtain ⟨hsame, before, after, hmembers, hfirst⟩ := List.find?_eq_some_iff_append.1 hm
        exact .member he hmembers hsame (by simpa using hfirst)
  | array items =>
    dsimp only
    split
    · exact .emptyList
    · rename_i hother
      exact .array hother
  | map values =>
    dsimp only
    split
    · exact .emptyMap
    · rename_i hother
      exact .map hother
  | primitive type =>
    dsimp only
    split
    · rename_i hbinary
      exact .binary (by simpa using hbinary)
    · rename_i hbinary
      cases hl : coercePrimitive type v with
      | some literal => exact .scalar (coercePrimitive_eq_some_iff.1 hl)
      | none =>
        refine .incompatible (by simpa using hbinary) fun literal hdenotes => ?_
        rw [coercePrimitive_eq_some_iff.2 hdenotes] at hl
        cases hl

theorem CoercesValue.coerceValue_eq (h : g.CoercesValue schema key type v answer) :
    g.coerceValue schema key type v = answer := by
  unfold coerceValue
  cases h with
  | @scalar type v literal hdenotes =>
    have htext : ¬(type = .byteArray ∨ type = .binary) :=
      fun hbinary => Json.not_denotes_of_binary hbinary _ hdenotes
    simp only [coercePrimitive_eq_some_iff.2 hdenotes]
    rw [if_neg (by simpa using htext)]
    rfl
  | @incompatible type v htext hunfit =>
    have hnone : coercePrimitive type v = none := by
      rw [Option.eq_none_iff_forall_ne_some]
      exact fun literal hl => hunfit literal (coercePrimitive_eq_some_iff.1 hl)
    simp only [hnone]
    rw [if_neg (by simpa using htext)]
    rfl
  | binary hbinary =>
    dsimp only
    rw [if_pos (by simpa using hbinary)]
    rfl
  | @member name e before after m v henum hmembers hequal hfirst =>
    have hm : e.member? v = some m :=
      List.find?_eq_some_iff_append.2 ⟨hequal, before, after, hmembers, by simpa using hfirst⟩
    simp only [enumOf?_named, henum, Option.map_some, hm]
    rfl
  | @unknown name e v henum hunlisted =>
    have hm : e.member? v = none := List.find?_eq_none.2 (by simpa using hunlisted)
    simp only [enumOf?_named, henum, Option.map_some, hm]
    rfl
  | object hobject =>
    simp only [enumOf?_named, hobject]
    rfl
  | emptyList => rfl
  | array hother =>
    dsimp only
    split
    · exact absurd rfl hother
    · rfl
  | emptyMap => rfl
  | map hother =>
    dsimp only
    split
    · exact absurd rfl hother
    · rfl

theorem coerce_iff : g.coerce schema p = answer ↔ g.Coerces schema p answer := by
  constructor
  · rintro rfl
    unfold coerce
    split
    · rename_i habsent
      exact .absent habsent
    · rename_i hnull
      exact .null hnull
    · rename_i v hnull hv
      exact .value hv hnull (coercesValue_coerceValue ..)
  · intro h
    unfold coerce
    cases h with
    | absent habsent =>
      rw [habsent]
      rfl
    | null hnull =>
      rw [hnull]
      rfl
    | @value v answer hdeclared hnull hvalue =>
      rw [hdeclared]
      cases v with
      | null => exact absurd rfl hnull
      | _ => exact hvalue.coerceValue_eq

/-- A constant comes from a member with the value of the default. -/
theorem Coerces.exists_member {constant : String} (h : g.Coerces schema p answer)
    (hanswer : answer.outcome = .ok (some (.enumMember name constant))) :
    ∃ v e m, p.default = some v ∧ p.type = .named name ∧ g.enum? (g.canonical name) = some e ∧
      m ∈ e.members ∧ m.constant = constant ∧ m.value.same v := by
  cases h with
  | absent => cases hanswer
  | null => cases hanswer
  | @value v answer hdeclared hnull hvalue =>
    generalize p.type = type at hvalue ⊢
    cases hvalue with
    | scalar hdenotes =>
      cases hanswer
      have hinhabits : Literal.Inhabits g.enum? (.enumMember name constant) (.primitive _) :=
        hdenotes.inhabits
      cases hinhabits.type_eq
    | @member other e before after m v henum hmembers hequal hfirst =>
      cases hanswer
      exact ⟨v, e, m, hdeclared, rfl, henum, by simp [hmembers], rfl, hequal⟩
    | _ => cases hanswer

/-- Coercion answers every default as it should, whatever the graph. In the graph of a document the
constant of an enum default belongs to one member only, and the value of this member equals the
default. -/
theorem coerce_exact (schema : String) (p : ResolvedProperty) :
    (∀ (g : Graph) answer, g.coerce schema p = answer ↔ g.Coerces schema p answer) ∧
    ∀ (d : Document) order g, d.resolve order = .ok g → ∀ name constant,
      (g.coerce schema p).outcome = .ok (some (.enumMember name constant)) →
      ∃ v e m, p.default = some v ∧ p.type = .named name ∧
        g.enum? (g.canonical name) = some e ∧ m ∈ e.members ∧ m.constant = constant ∧
        m.value.same v ∧ ∀ other ∈ e.members, other.constant = constant → other = m := by
  refine ⟨fun g answer => coerce_iff, ?_⟩
  intro d order g hg name constant hanswer
  obtain ⟨v, e, m, hv, htype, henum, hm, rfl, hequal⟩ := (coerce_iff.1 rfl).exists_member hanswer
  obtain ⟨s, hs, hshape⟩ := Option.bind_eq_some_iff.1 henum
  have hdistinct : e.Distinct := Document.resolve_enums_distinct hg hs hshape
  refine ⟨v, e, m, hv, htype, henum, hm, rfl, hequal, ?_⟩
  intro other hother hconstant
  exact List.inj_on_of_nodup_map hdistinct hother hm hconstant

end Graph

end

/-- An enum of two values that differ in case only. -/
def casedEnum : Document :=
  ⟨"3.0.3", default,
    [("E", .schema { Schema.empty with
        type := some (.single .string)
        enum := [.str "A", .str "a"] })], by decide⟩

def smallByDefault : ResolvedProperty :=
  ⟨"k", .named "E", .field .none, false, some (.str "a"), none, []⟩

theorem coerce_exact_small_by_default : ∃ g, casedEnum.resolve ["E"] = .ok g ∧
    (g.coerce "S" smallByDefault).outcome = .ok (some (.enumMember "E" "A2")) ∧
    ∃ v e m, smallByDefault.default = some v ∧ smallByDefault.type = .named "E" ∧
      g.enum? (g.canonical "E") = some e ∧ m ∈ e.members ∧ m.constant = "A2" ∧
      m.value.same v ∧ ∀ other ∈ e.members, other.constant = "A2" → other = m := by
  have hcoerced : (casedEnum.resolve ["E"]).toOption.bind
      (fun g => (g.coerce "S" smallByDefault).outcome.toOption) =
        some (some (.enumMember "E" "A2")) := by cbv
  obtain ⟨g, hg, hliteral⟩ := toOption_bind_eq_some_iff.1 hcoerced
  rw [toOption_eq_some_iff] at hliteral
  exact ⟨g, hg, hliteral,
    (Graph.coerce_exact "S" smallByDefault).2 casedEnum ["E"] g hg "E" "A2" hliteral⟩

end SchemaModel
