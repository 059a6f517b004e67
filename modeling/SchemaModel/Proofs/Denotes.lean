import SchemaModel.Proofs.NumberText

/-!
The scalar literals. A default of a scalar type becomes the literal that denotes it, if there is
one (`coercePrimitive_eq_some_iff`): texts and flags stay what they are, whole numbers keep their
value within the bounds of their type, and other numbers keep the text in which they were written.
-/

namespace SchemaModel

/-- The text of a number that a default denotes, as a number or as a text. -/
inductive Json.Numeric : Json → String → Prop where
  | number {n : Number} : Numeric (.num n) n.text
  | text {text : String} {inner : List Char} {numeral : Numeral} {x : Double}
      (trims : Text.Trims text.toList inner) (reads : Numeral.read? inner = some numeral)
      (finite : numeral.toDouble? = some x) : Numeric (.str text) (String.ofList inner)

variable {v : Json} {literal : Literal}

section

variable [Libraries]

/-- The literal of a scalar type that denotes the value of a default. -/
inductive Json.Denotes : Json → Primitive → Literal → Prop where
  | string {text : String} : Denotes (.str text) .string (.string text)
  | stringOfNumber {n : Number} : Denotes (.num n) .string (.string n.text)
  | stringOfFlag {b : Bool} : Denotes (.bool b) .string (.string (toString b))
  | email {v : Json} {literal : Literal} (string : v.Denotes .string literal) :
      Denotes v .email literal
  | uri {text : String} : Denotes (.str text) .uri (.uri text)
  | uuid {text canonical : String} {inner : List Char} (trims : Text.Trims text.toList inner)
      (reads : Libraries.uuid? inner = some canonical) : Denotes (.str text) .uuid (.uuid canonical)
  | date {text : String} (valid : Libraries.isDate text) : Denotes (.str text) .date (.date text)
  | dateTime {text : String} (valid : Libraries.isInstant text) :
      Denotes (.str text) .dateTime (.dateTime text)
  | int32 {v : Json} {n : Int} (whole : v.Whole n) (low : -2147483648 ≤ n)
      (high : n ≤ 2147483647) : Denotes v .int32 (.int n)
  | int64 {v : Json} {n : Int} (whole : v.Whole n) (low : -9223372036854775808 ≤ n)
      (high : n ≤ 9223372036854775807) : Denotes v .int64 (.long n)
  | float {v : Json} {digits : String} (numeric : v.Numeric digits) :
      Denotes v .float (.float digits)
  | double {v : Json} {digits : String} (numeric : v.Numeric digits) :
      Denotes v .double (.double digits)
  | decimal {v : Json} {digits : String} (numeric : v.Numeric digits) :
      Denotes v .decimal (.decimal digits)
  | boolean {b : Bool} : Denotes (.bool b) .boolean (.boolean b)
  | booleanOfTrue : Denotes (.str "true") .boolean (.boolean true)
  | booleanOfFalse : Denotes (.str "false") .boolean (.boolean false)
  | untypedText {text : String} : Denotes (.str text) .untyped (.string text)
  | untypedFlag {b : Bool} : Denotes (.bool b) .untyped (.boolean b)
  | untypedWhole {n : Int} (low : -9223372036854775808 ≤ n) (high : n ≤ 9223372036854775807) :
      Denotes (.num (.int n)) .untyped (.long n)
  | untypedNumber {n : Number}
      (large : ∀ k, n = .int k → k < -9223372036854775808 ∨ 9223372036854775807 < k) :
      Denotes (.num n) .untyped (.decimal n.text)

/-- No literal denotes binary data. -/
theorem Json.not_denotes_of_binary {type : Primitive} (h : type = .byteArray ∨ type = .binary)
    (literal : Literal) : ¬v.Denotes type literal := by
  rcases h with rfl | rfl <;> rintro ⟨⟩

omit [Libraries] in
theorem Json.numericText?_eq_some_iff {digits : String} :
    v.numericText? = some digits ↔ v.Numeric digits := by
  unfold numericText?
  split
  · rename_i n
    rw [Option.some.injEq]
    constructor
    · rintro rfl
      exact .number
    · intro h
      cases h
      rfl
  · rename_i text
    constructor
    · intro h
      obtain ⟨x, hx, rfl⟩ := Option.map_eq_some_iff.1 h
      obtain ⟨numeral, hreads, hfinite⟩ := Option.bind_eq_some_iff.1 hx
      exact .text (Text.trims_trim _) hreads hfinite
    · intro h
      cases h with
      | text htrims hreads hfinite =>
        rw [Text.trim_eq_iff.2 htrims]
        exact Option.map_eq_some_iff.2 ⟨_, Option.bind_eq_some_iff.2 ⟨_, hreads, hfinite⟩, rfl⟩
  · rename_i hnumber htext
    simp only [reduceCtorEq, false_iff]
    intro h
    cases h with
    | number => exact hnumber _ rfl
    | text => exact htext _ rfl

theorem coerceString_eq_some_iff : coerceString v = some literal ↔ v.Denotes .string literal := by
  have htext : ∀ b : Bool, (if b then "true" else "false") = toString b := by decide
  constructor
  · intro h
    unfold coerceString at h
    split at h
    · cases h
      exact .string
    · cases h
      exact .stringOfNumber
    · cases h
      rw [htext]
      exact .stringOfFlag
    · cases h
  · intro h
    cases h with
    | string => rfl
    | stringOfNumber => rfl
    | stringOfFlag => rw [coerceString, htext]

theorem coerceBoolean_eq_some_iff :
    coerceBoolean v = some literal ↔ v.Denotes .boolean literal := by
  constructor
  · intro h
    unfold coerceBoolean at h
    split at h
    · cases h
      exact .boolean
    · cases h
      exact .booleanOfTrue
    · cases h
      exact .booleanOfFalse
    · cases h
  · intro h
    cases h with
    | boolean => rfl
    | booleanOfTrue => rfl
    | booleanOfFalse => rfl

theorem coerceUntyped_eq_some_iff :
    coerceUntyped v = some literal ↔ v.Denotes .untyped literal := by
  constructor
  · intro h
    unfold coerceUntyped at h
    split at h
    · cases h
      exact .untypedText
    · cases h
      exact .untypedFlag
    · rename_i n
      cases hn : signed64? n with
      | some k =>
        obtain ⟨rfl, hfits⟩ := signed64?_eq_some_iff.1 hn
        obtain ⟨low, high⟩ := fitsSigned_64_iff.1 hfits
        simp only [hn] at h
        cases h
        exact .untypedWhole low high
      | none =>
        simp only [hn] at h
        cases h
        refine .untypedNumber ?_
        rintro k ⟨⟩
        exact signed64?_eq_none_iff.1 hn
    · rename_i n hfraction
      cases h
      exact .untypedNumber fun k hk => absurd hk (hfraction k)
    · cases h
  · intro h
    cases h with
    | untypedText => rfl
    | untypedFlag => rfl
    | untypedWhole low high =>
      simp only [coerceUntyped, signed64?_eq_some_iff.2 ⟨rfl, fitsSigned_64_iff.2 ⟨low, high⟩⟩]
    | @untypedNumber n large =>
      cases n with
      | int k =>
        simp only [coerceUntyped, signed64?_eq_none_iff.2 (large k rfl)]
        rfl
      | double x => rfl

end

theorem Json.str?_eq_some_iff {text : String} : v.str? = some text ↔ v = .str text := by
  cases v <;> simp [str?]

theorem Json.filter_str?_eq_some_iff {valid : String → Bool} {text : String} :
    v.str?.filter valid = some text ↔ v = .str text ∧ valid text := by
  rw [Option.filter_eq_some_iff, str?_eq_some_iff]

theorem Json.int32?_eq_some_iff {n : Int} : v.integer?.filter (fitsSigned 32) = some n ↔
    v.Whole n ∧ -2147483648 ≤ n ∧ n ≤ 2147483647 := by
  rw [Option.filter_eq_some_iff, Json.integer?_eq_some_iff, fitsSigned_32_iff, fitsSigned_64_iff]
  constructor
  · rintro ⟨⟨hwhole, -⟩, hfits⟩
    exact ⟨hwhole, hfits⟩
  · rintro ⟨hwhole, hfits⟩
    exact ⟨⟨hwhole, by omega⟩, hfits⟩

variable [Libraries]

/-- What is read from a default and made into a literal is what the literal denotes. -/
theorem map_eq_some_iff_denotes {α : Type} {type : Primitive} {read : Option α}
    {make : α → Literal} {spec : α → Prop} (hread : ∀ a, read = some a ↔ spec a)
    (hmake : ∀ a, spec a → v.Denotes type (make a))
    (honly : ∀ l, v.Denotes type l → ∃ a, spec a ∧ make a = l) :
    read.map make = some literal ↔ v.Denotes type literal := by
  simp only [Option.map_eq_some_iff, hread]
  constructor
  · rintro ⟨a, ha, rfl⟩
    exact hmake a ha
  · exact honly literal

/-- A default of a scalar type becomes the literal that denotes it. -/
theorem coercePrimitive_eq_some_iff {type : Primitive} :
    coercePrimitive type v = some literal ↔ v.Denotes type literal := by
  cases type with
  | string => exact coerceString_eq_some_iff
  | email =>
    rw [coercePrimitive, coerceString_eq_some_iff]
    constructor
    · exact .email
    · rintro ⟨⟩
      assumption
  | uri =>
    refine map_eq_some_iff_denotes (fun _ => Json.str?_eq_some_iff) ?_ ?_
    · rintro _ rfl
      exact .uri
    · rintro _ ⟨⟩
      exact ⟨_, rfl, rfl⟩
  | uuid =>
    have hread : ∀ canonical, (v.str?.bind fun text => Libraries.uuid? (Text.trim text.toList)) =
        some canonical ↔ ∃ text, v = .str text ∧
          Libraries.uuid? (Text.trim text.toList) = some canonical := by
      intro canonical
      simp only [Option.bind_eq_some_iff, Json.str?_eq_some_iff]
    refine map_eq_some_iff_denotes hread ?_ ?_
    · rintro _ ⟨text, rfl, hreads⟩
      exact .uuid (Text.trims_trim _) hreads
    · intro l h
      cases h with
      | uuid htrims hreads =>
        exact ⟨_, ⟨_, rfl, by rw [Text.trim_eq_iff.2 htrims, hreads]⟩, rfl⟩
  | date =>
    refine map_eq_some_iff_denotes (fun _ => Json.filter_str?_eq_some_iff) ?_ ?_
    · rintro _ ⟨rfl, hvalid⟩
      exact .date hvalid
    · intro l h
      cases h with
      | date hvalid => exact ⟨_, ⟨rfl, hvalid⟩, rfl⟩
  | dateTime =>
    refine map_eq_some_iff_denotes (fun _ => Json.filter_str?_eq_some_iff) ?_ ?_
    · rintro _ ⟨rfl, hvalid⟩
      exact .dateTime hvalid
    · intro l h
      cases h with
      | dateTime hvalid => exact ⟨_, ⟨rfl, hvalid⟩, rfl⟩
  | int32 =>
    refine map_eq_some_iff_denotes (fun _ => Json.int32?_eq_some_iff) ?_ ?_
    · rintro n ⟨hwhole, low, high⟩
      exact .int32 hwhole low high
    · intro l h
      cases h with
      | int32 hwhole low high => exact ⟨_, ⟨hwhole, low, high⟩, rfl⟩
  | int64 =>
    refine map_eq_some_iff_denotes (fun _ => Json.integer?_eq_some_iff) ?_ ?_
    · rintro n ⟨hwhole, hfits⟩
      obtain ⟨low, high⟩ := fitsSigned_64_iff.1 hfits
      exact .int64 hwhole low high
    · intro l h
      cases h with
      | int64 hwhole low high =>
        exact ⟨_, ⟨hwhole, fitsSigned_64_iff.2 ⟨low, high⟩⟩, rfl⟩
  | float =>
    refine map_eq_some_iff_denotes (fun _ => Json.numericText?_eq_some_iff) (fun _ => .float) ?_
    intro l h
    cases h with
    | float hnumeric => exact ⟨_, hnumeric, rfl⟩
  | double =>
    refine map_eq_some_iff_denotes (fun _ => Json.numericText?_eq_some_iff) (fun _ => .double) ?_
    intro l h
    cases h with
    | double hnumeric => exact ⟨_, hnumeric, rfl⟩
  | decimal =>
    refine map_eq_some_iff_denotes (fun _ => Json.numericText?_eq_some_iff) (fun _ => .decimal) ?_
    intro l h
    cases h with
    | decimal hnumeric => exact ⟨_, hnumeric, rfl⟩
  | boolean => exact coerceBoolean_eq_some_iff
  | untyped => exact coerceUntyped_eq_some_iff
  | byteArray =>
    simp only [coercePrimitive, reduceCtorEq, false_iff]
    rintro ⟨⟩
  | binary =>
    simp only [coercePrimitive, reduceCtorEq, false_iff]
    rintro ⟨⟩

end SchemaModel
