import SchemaModel.Proofs.Document.Keywords
import SchemaModel.Proofs.NameMap

/-!
The grammar of nodes, as a relation beside the reader. A node is well formed if it is a reference,
an object whose keywords have admissible values, or a list of such values for all keywords
(`WellFormed`); these are the nodes that are read (`Node.isSome_read?`).
-/

namespace SchemaModel

open Json

/-- A type name by itself, or as the only member of an object. -/
inductive TypeName : Json → Prop where
  | plain (type : SchemaType) : TypeName (.str type.name)
  | member (type : SchemaType) : TypeName (.obj [(type.name, .null)])

/-- An object whose members are strings. -/
inductive StringMap : Json → Prop where
  | mk {fields : List (String × Json)} (strings : ∀ e ∈ fields, ∃ text, e.2 = .str text) :
      StringMap (.obj fields)

/-- An object with the name of a property and maybe a mapping, or a list of the two. -/
inductive DiscriminatorForm : Json → Prop where
  | object {fields : List (String × Json)} {name : String}
      (named : fields.lookup "propertyName" = some (.str name))
      (mapping : ∀ v, fields.lookup "mapping" = some v → StringMap v) :
      DiscriminatorForm (.obj fields)
  | short (name : String) : DiscriminatorForm (.arr [.str name])
  | list (name : String) {mapping : Json} (strings : StringMap mapping) :
      DiscriminatorForm (.arr [.str name, mapping])

mutual

/-- The values that are nodes. -/
inductive WellFormed : Json → Prop where
  | ref {fields : List (String × Json)} {path : String}
      (ref : fields.lookup "$ref" = some (.str path)) : WellFormed (.obj fields)
  | schema {fields : List (String × Json)}
      (admissible : ∀ e ∈ Schema.grammar, ∀ v, fields.lookup e.1 = some v → Admissible e.2 v) :
      WellFormed (.obj fields)
  | list {items : List Json} (length : items.length = Schema.grammar.length)
      (admissible : ∀ e ∈ Schema.grammar.zip items, Admissible e.1.2 e.2) :
      WellFormed (.arr items)

/-- The values that a keyword may have, if it is there. -/
inductive Admissible : Kind → Json → Prop where
  | null {kind : Kind} (nullable : kind.isNullable) : Admissible kind .null
  | typeName {v : Json} (name : TypeName v) : Admissible .type v
  | typeNames {items : List Json} (names : ∀ v ∈ items, TypeName v) : Admissible .type (.arr items)
  | text (text : String) : Admissible .text (.str text)
  | flag (b : Bool) : Admissible .flag (.bool b)
  | count (n : Nat) : Admissible .count (.num (.int n))
  | number (n : Number) : Admissible .number (.num n)
  | boundFlag (b : Bool) : Admissible .bound (.bool b)
  | bound (n : Number) : Admissible .bound (.num n)
  | any (v : Json) : Admissible .any v
  | discriminator {v : Json} (form : DiscriminatorForm v) : Admissible .discriminator v
  | names {items : List Json} (strings : ∀ v ∈ items, ∃ text, v = .str text) :
      Admissible .names (.arr items)
  | values (items : List Json) : Admissible .values (.arr items)
  | node {v : Json} (node : WellFormed v) : Admissible .node v
  | additionalFlag (b : Bool) : Admissible .additional (.bool b)
  | additional {v : Json} (node : WellFormed v) : Admissible .additional v
  | nodes {items : List Json} (nodes : ∀ v ∈ items, WellFormed v) : Admissible .nodes (.arr items)
  | namedNodes {fields : List (String × Json)} (nodes : ∀ e ∈ fields, WellFormed e.2) :
      Admissible .namedNodes (.obj fields)

end

variable {v : Json}

/-- An object is well formed if its members are admissible where they are keywords. -/
theorem WellFormed.object {fields : List (String × Json)}
    (h : ∀ e ∈ fields, ∀ kind, (e.1, kind) ∈ Schema.grammar → Admissible kind e.2) :
    WellFormed (.obj fields) :=
  .schema fun e he _ hv => h _ (mem_of_lookup hv) e.2 he

theorem isSome_mapM {α β : Type} {f : α → Option β} {l : List α} :
    (l.mapM f).isSome ↔ ∀ a ∈ l, (f a).isSome := by
  induction l with
  | nil => simp
  | cons a rest ih =>
    rw [List.mapM_cons, List.forall_mem_cons, ← ih]
    cases f a <;> cases rest.mapM f <;> simp

theorem SchemaType.isSome_ofName? {text : String} :
    (SchemaType.ofName? text).isSome ↔ ∃ type : SchemaType, text = type.name := by
  rw [ofName?, List.find?_isSome]
  constructor
  · rintro ⟨type, -, h⟩
    exact ⟨type, (beq_iff_eq.1 h).symm⟩
  · rintro ⟨type, rfl⟩
    exact ⟨type, by cases type <;> decide, beq_self_eq_true _⟩

theorem SchemaType.isSome_read? : (SchemaType.read? v).isSome ↔ TypeName v := by
  constructor
  · intro h
    unfold read? at h
    split at h
    · obtain ⟨type, rfl⟩ := isSome_ofName?.1 h
      exact .plain type
    · obtain ⟨type, rfl⟩ := isSome_ofName?.1 h
      exact .member type
    · cases h
  · rintro (type | type)
    · exact isSome_ofName?.2 ⟨type, rfl⟩
    · exact isSome_ofName?.2 ⟨type, rfl⟩

theorem TypeSet.isSome_read? :
    (TypeSet.read? v).isSome ↔ TypeName v ∨ ∃ items, v = .arr items ∧ ∀ w ∈ items, TypeName w := by
  unfold read?
  split
  · rename_i type h
    simp [← SchemaType.isSome_read?, h]
  · rename_i h
    simp only [← SchemaType.isSome_read?, h, Option.isSome_map, ← isSome_mapM]
    cases v <;> simp [arr?]

theorem isSome_namedStrings? : (namedStrings? v).isSome ↔ StringMap v := by
  constructor
  · intro h
    unfold namedStrings? at h
    cases v with
    | obj fields =>
      refine .mk fun e he => ?_
      have := isSome_mapM.1 h e he
      obtain ⟨key, w⟩ := e
      cases w <;> first | exact ⟨_, rfl⟩ | cases this
    | _ => cases h
  · rintro ⟨h⟩
    refine isSome_mapM.2 fun e he => ?_
    obtain ⟨text, ht⟩ := h e he
    rw [ht]
    rfl

theorem Discriminator.isSome_read? : (Discriminator.read? v).isSome ↔ DiscriminatorForm v := by
  have hobject : ∀ fields : List (String × Json), (Discriminator.read? (.obj fields)).isSome ↔
      (∃ name, fields.lookup "propertyName" = some (.str name)) ∧
        ∀ w, fields.lookup "mapping" = some w → StringMap w := by
    intro fields
    simp only [read?, Option.bind_eq_bind, Option.isSome_bind, Option.isSome_some, any_const,
      Bool.and_true, Bool.and_eq_true, any_isSome_str?, isSome_defaulted, isSome_namedStrings?]
  constructor
  · intro h
    cases v with
    | obj fields =>
      obtain ⟨⟨name, hname⟩, hmapping⟩ := (hobject fields).1 h
      exact .object hname hmapping
    | arr items =>
      unfold read? at h
      split at h
      · rename_i hitems
        cases hitems
      · rename_i name hitems
        cases hitems
        cases name with
        | str name => exact .short name
        | _ => cases h
      · rename_i name mapping hitems
        cases hitems
        cases name with
        | str name =>
          refine .list name (isSome_namedStrings?.1 ?_)
          cases hmapping : namedStrings? mapping with
          | none => simp [hmapping] at h
          | some mapping => rfl
        | _ => cases h
      · cases h
    | _ => cases h
  · rintro (⟨hname, hmapping⟩ | _ | ⟨_, hstrings⟩)
    · exact (hobject _).2 ⟨⟨_, hname⟩, hmapping⟩
    · rfl
    · obtain ⟨mapping, hmapping⟩ := Option.isSome_iff_exists.1 (isSome_namedStrings?.2 hstrings)
      simp [read?, str?, hmapping]

theorem isSome_strings? :
    (strings? v).isSome ↔ ∃ items, v = .arr items ∧ ∀ w ∈ items, ∃ text, w = .str text := by
  have hstring : ∀ w : Json, (str? w).isSome ↔ ∃ text, w = .str text := by
    intro w
    cases w <;> simp [str?]
  cases v <;> simp [strings?, arr?, isSome_mapM, hstring]

theorem Node.readItems?_eq (items : List Json) : readItems? items = items.mapM read? := by
  induction items with
  | nil => rw [readItems?, List.mapM_nil]; rfl
  | cons item rest ih => rw [readItems?, ih, List.mapM_cons]; rfl

/-- The names stay what they are, and the values are read. -/
theorem Node.readFields?_eq (fields : List (String × Json)) : readFields? fields =
    ((fields.map Prod.snd).mapM read?).map fun nodes => (fields.map Prod.fst).zip nodes := by
  induction fields with
  | nil =>
    rw [readFields?]
    rfl
  | cons e rest ih =>
    obtain ⟨key, value⟩ := e
    rw [readFields?, ih, List.map_cons, List.map_cons, List.mapM_cons]
    cases read? value <;> cases (rest.map Prod.snd).mapM read? <;> rfl

theorem Node.isSome_readList? : (Node.readList? v).isSome ↔
    ∃ items, v = .arr items ∧ ∀ w ∈ items, (Node.read? w).isSome := by
  cases v <;> simp [readList?, readItems?_eq, isSome_mapM]

theorem Node.isSome_readMap? : (Node.readMap? v).isSome ↔
    ∃ fields, v = .obj fields ∧ ∀ e ∈ fields, (Node.read? e.2).isSome := by
  cases v <;> simp [readMap?, readFields?_eq, isSome_mapM]

theorem Additional.isSome_read? :
    (Additional.read? v).isSome ↔ (∃ b, v = .bool b) ∨ (Node.read? v).isSome := by
  cases v <;> simp [read?, Node.read?]

theorem isNull_iff : v.isNull ↔ v = .null := by
  cases v <;> simp [isNull]

namespace Kind

/-- A value without nodes is admissible if it can be read. -/
theorem admissible_of_isRead {kind : Kind} (h : kind.holdsNodes = false) (hread : kind.isRead v) :
    Admissible kind v := by
  cases kind with
  | type =>
    simp only [isRead, Bool.or_eq_true, isNull_iff, TypeSet.isSome_read?] at hread
    obtain rfl | hname | ⟨items, rfl, hnames⟩ := hread
    · exact .null rfl
    · exact .typeName hname
    · exact .typeNames hnames
  | text =>
    cases v with
    | null => exact .null rfl
    | str text => exact .text text
    | _ => cases hread
  | flag =>
    cases v with
    | null => exact .null rfl
    | bool b => exact .flag b
    | _ => cases hread
  | count =>
    cases v with
    | null => exact .null rfl
    | num n =>
      cases n with
      | int n =>
        obtain ⟨count, hcount⟩ := Option.isSome_iff_exists.1 hread
        obtain ⟨hn, -⟩ := Option.ite_none_right_eq_some.1 hcount
        obtain ⟨n, rfl⟩ := Int.eq_ofNat_of_zero_le hn
        exact .count n
      | double x => cases hread
    | _ => cases hread
  | number =>
    cases v with
    | null => exact .null rfl
    | num n => exact .number n
    | _ => cases hread
  | bound =>
    cases v with
    | null => exact .null rfl
    | bool b => exact .boundFlag b
    | num n => exact .bound n
    | _ => cases hread
  | any => exact .any v
  | discriminator =>
    simp only [isRead, Bool.or_eq_true, isNull_iff, Discriminator.isSome_read?] at hread
    obtain rfl | hform := hread
    · exact .null rfl
    · exact .discriminator hform
  | names =>
    obtain ⟨items, rfl, hstrings⟩ := isSome_strings?.1 hread
    exact .names hstrings
  | values =>
    cases v with
    | arr items => exact .values items
    | _ => cases hread
  | node => cases h
  | additional => cases h
  | nodes => cases h
  | namedNodes => cases h

theorem isRead_of_admissible {kind : Kind} (h : kind.holdsNodes = false)
    (hadmissible : Admissible kind v) : kind.isRead v := by
  cases hadmissible with
  | null hnullable => cases kind <;> first | rfl | cases hnullable
  | typeName hname =>
    simp only [isRead, Bool.or_eq_true, TypeSet.isSome_read?]
    exact .inr (.inl hname)
  | typeNames hnames =>
    simp only [isRead, Bool.or_eq_true, TypeSet.isSome_read?]
    exact .inr (.inr ⟨_, rfl, hnames⟩)
  | discriminator hform =>
    simp only [isRead, Bool.or_eq_true, Discriminator.isSome_read?]
    exact .inr hform
  | names hstrings => exact isSome_strings?.2 ⟨_, rfl, hstrings⟩
  | count n => simp [isRead, count?]
  | node => cases h
  | additionalFlag => cases h
  | additional => cases h
  | nodes => cases h
  | namedNodes => cases h
  | _ => rfl

/-- A value is admissible if it can be read, where the nodes inside are well formed if they can. -/
theorem isRead_iff {kind : Kind}
    (ih : ∀ w : Json, sizeOf w ≤ sizeOf v → ((Node.read? w).isSome ↔ WellFormed w)) :
    kind.isRead v ↔ Admissible kind v := by
  cases kind with
  | node =>
    simp only [isRead, Bool.or_eq_true, isNull_iff, ih v (Nat.le_refl _)]
    constructor
    · rintro (rfl | hnode)
      · exact .null rfl
      · exact .node hnode
    · intro h
      cases h with
      | null => exact .inl rfl
      | node hnode => exact .inr hnode
  | additional =>
    simp only [isRead, Bool.or_eq_true, isNull_iff, Additional.isSome_read?, ih v (Nat.le_refl _)]
    constructor
    · rintro (rfl | ⟨b, rfl⟩ | hnode)
      · exact .null rfl
      · exact .additionalFlag b
      · exact .additional hnode
    · intro h
      cases h with
      | null => exact .inl rfl
      | additionalFlag b => exact .inr (.inl ⟨b, rfl⟩)
      | additional hnode => exact .inr (.inr hnode)
  | nodes =>
    simp only [isRead, Node.isSome_readList?]
    have hinside : ∀ items, v = .arr items → ∀ w ∈ items, (Node.read? w).isSome ↔ WellFormed w := by
      rintro items rfl w hw
      have hsize := List.sizeOf_lt_of_mem hw
      exact ih w (by simp; omega)
    constructor
    · rintro ⟨items, rfl, hnodes⟩
      exact .nodes fun w hw => (hinside items rfl w hw).1 (hnodes w hw)
    · intro h
      cases h with
      | null hnullable => cases hnullable
      | nodes hnodes => exact ⟨_, rfl, fun w hw => (hinside _ rfl w hw).2 (hnodes w hw)⟩
  | namedNodes =>
    simp only [isRead, Node.isSome_readMap?]
    have hinside : ∀ fields, v = .obj fields → ∀ e ∈ fields,
        ((Node.read? e.2).isSome ↔ WellFormed e.2) := by
      rintro fields rfl ⟨key, w⟩ he
      have hsize := List.sizeOf_lt_of_mem he
      rw [Prod.mk.sizeOf_spec] at hsize
      exact ih w (by simp; omega)
    constructor
    · rintro ⟨fields, rfl, hnodes⟩
      exact .namedNodes fun e he => (hinside fields rfl e he).1 (hnodes e he)
    · intro h
      cases h with
      | null hnullable => cases hnullable
      | namedNodes hnodes => exact ⟨_, rfl, fun e he => (hinside _ rfl e he).2 (hnodes e he)⟩
  | _ => exact ⟨admissible_of_isRead rfl, isRead_of_admissible rfl⟩

end Kind

theorem Node.isSome_read?_obj {fields : List (String × Json)} :
    (Node.read? (.obj fields)).isSome ↔
      (∃ path, fields.lookup "$ref" = some (.str path)) ∨ (Schema.read? fields).isSome := by
  rw [Node.read?]
  split
  · rename_i path h
    simp [h]
  · rename_i h
    rw [Option.isSome_map, iff_or_self]
    rintro ⟨path, hpath⟩
    exact absurd hpath (h path)

theorem Node.isSome_read?_arr {items : List Json} : (Node.read? (.arr items)).isSome ↔
    items.length = Schema.keywords.length ∧ (Schema.read? (Schema.keywords.zip items)).isSome := by
  rw [Node.read?]
  split
  · rename_i h
    simp [h]
  · rename_i h
    simp [h]

/-- In a list, each keyword has the value in its place. -/
theorem Schema.lookup_keywords {items : List Json} (hl : items.length = keywords.length)
    {e : String × Kind} (he : e ∈ grammar) {w : Json} :
    (keywords.zip items).lookup e.1 = some w ↔ (e, w) ∈ grammar.zip items := by
  have hkeys : (grammar.map Prod.fst).Nodup := by decide
  have hnames : ((keywords.zip items).map Prod.fst).Nodup := by
    rwa [List.map_fst_zip (Nat.le_of_eq hl.symm)]
  rw [lookup_eq_some_iff hnames, ← map_fst_grammar, List.zip_map_left, List.mem_map]
  constructor
  · rintro ⟨⟨other, _⟩, hother, heq⟩
    obtain ⟨hname, rfl⟩ := Prod.mk.inj heq
    rwa [← List.inj_on_of_nodup_map hkeys (List.of_mem_zip hother).1 he hname]
  · intro hmem
    exact ⟨_, hmem, rfl⟩

/-- The nodes that are read are the well-formed ones. -/
theorem Node.isSome_read? (v : Json) : (Node.read? v).isSome ↔ WellFormed v := by
  have ih : ∀ w : Json, sizeOf w < sizeOf v → ((Node.read? w).isSome ↔ WellFormed w) :=
    fun w _ => Node.isSome_read? w
  cases v with
  | obj fields =>
    have hkinds : ∀ (kind : Kind) (key : String) (w : Json), fields.lookup key = some w →
        (kind.isRead w ↔ Admissible kind w) := by
      intro kind key w hw
      have hsize := sizeOf_lt_of_lookup hw
      have hextent := extent_le_sizeOf fields
      exact Kind.isRead_iff fun u hu => ih u (by simp; omega)
    rw [isSome_read?_obj, Schema.read?_isSome_iff]
    constructor
    · rintro (⟨path, hpath⟩ | hread)
      · exact .ref hpath
      · exact .schema fun e he w hw => (hkinds _ _ w hw).1 (hread e he w hw)
    · intro h
      cases h with
      | ref hpath => exact .inl ⟨_, hpath⟩
      | schema hadmissible =>
        exact .inr fun e he w hw => (hkinds _ _ w hw).2 (hadmissible e he w hw)
  | arr items =>
    have hkinds : ∀ kind : Kind, ∀ w ∈ items, (kind.isRead w ↔ Admissible kind w) := by
      intro kind w hw
      have hsize := List.sizeOf_lt_of_mem hw
      exact Kind.isRead_iff fun u hu => ih u (by simp; omega)
    rw [isSome_read?_arr, Schema.read?_isSome_iff]
    constructor
    · rintro ⟨hl, hread⟩
      refine .list hl fun e he => ?_
      have hmem := List.of_mem_zip he
      exact (hkinds _ _ hmem.2).1 (hread _ hmem.1 _ ((Schema.lookup_keywords hl hmem.1).2 he))
    · intro h
      cases h with
      | list hl hadmissible =>
        refine ⟨hl, fun e he w hw => ?_⟩
        have hmem := (Schema.lookup_keywords hl he).1 hw
        exact (hkinds _ _ (List.of_mem_zip hmem).2).2 (hadmissible _ hmem)
  | _ =>
    refine iff_of_false (by simp [Node.read?]) ?_
    rintro ⟨⟩
termination_by sizeOf v

end SchemaModel
