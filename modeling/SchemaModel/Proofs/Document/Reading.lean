import SchemaModel.Proofs.Document.Likeness
import SchemaModel.Proofs.Libraries.Header

/-!
Reading a whole document. A document is read exactly if its version is supported, its header is of
the form of one and its component schemas are well formed; otherwise the first of these checks that
fails is reported. What is read is in the order of the value, and depends on nothing besides what is
checked (`Document.read_exact`).
-/

namespace SchemaModel

open Json

/-- The component schemas of a root, in which `components` and `schemas` are objects where they are
there. -/
inductive Declares (root : List (String × Json)) : List (String × Json) → Prop where
  | noComponents (none : root.lookup "components" = none) : Declares root []
  | noSchemas {components : List (String × Json)}
      (object : root.lookup "components" = some (.obj components))
      (none : components.lookup "schemas" = none) : Declares root []
  | schemas {components schemas : List (String × Json)}
      (object : root.lookup "components" = some (.obj components))
      (declared : components.lookup "schemas" = some (.obj schemas)) : Declares root schemas

/-- The version is a string that starts with `3.`. -/
def Supported (root : List (String × Json)) : Prop :=
  ∃ minor : String, root.lookup "openapi" = some (.str ("3." ++ minor))

/-- The version that is reported: the declared one, if it is a string. -/
inductive Declared (root : List (String × Json)) : String → Prop where
  | text {version : String} (declared : root.lookup "openapi" = some (.str version)) :
      Declared root version
  | none (undeclared : ∀ version, root.lookup "openapi" ≠ some (.str version)) : Declared root ""

section

variable [Libraries]

structure Readable (root schemas : List (String × Json)) : Prop where
  supported : Supported root
  header : ∃ v, root.lookup "info" = some v ∧ InfoForm v
  wellFormed : ∀ e ∈ schemas, WellFormed e.2

/-- The failure of the first check that fails. -/
inductive FirstFailure (root schemas : List (String × Json)) : DocumentError → Prop where
  | version {version : String} (unsupported : ¬Supported root) (declared : Declared root version) :
      FirstFailure root schemas (.unsupportedVersion version)
  | missing (supported : Supported root) (none : root.lookup "info" = none) :
      FirstFailure root schemas .missingInfo
  | header {v : Json} (supported : Supported root) (info : root.lookup "info" = some v)
      (invalid : ¬InfoForm v) : FirstFailure root schemas .invalidInfo
  | schema {v w : Json} {before after : List (String × Json)} {name : String}
      (supported : Supported root) (info : root.lookup "info" = some v) (header : InfoForm v)
      (declared : schemas = before ++ (name, w) :: after)
      (wellFormed : ∀ e ∈ before, WellFormed e.2) (malformed : ¬WellFormed w) :
      FirstFailure root schemas (.invalidSchema ("components.schemas." ++ name))

end

/-- Headers that differ only in members that are not read. -/
inductive AlikeInfo : Json → Json → Prop where
  | same (v : Json) : AlikeInfo v v
  | object {fields others : List (String × Json)}
      (keywords : ∀ key ∈ Info.keywords, fields.lookup key = others.lookup key) :
      AlikeInfo (.obj fields) (.obj others)

inductive AlikeSchemas : Json → Json → Prop where
  | same (v : Json) : AlikeSchemas v v
  | object {schemas others : List (String × Json)}
      (names : schemas.map Prod.fst = others.map Prod.fst)
      (nodes : List.Forall₂ Alike (schemas.map Prod.snd) (others.map Prod.snd)) :
      AlikeSchemas (.obj schemas) (.obj others)

inductive AlikeComponents : Json → Json → Prop where
  | same (v : Json) : AlikeComponents v v
  | object {fields others : List (String × Json)}
      (schemas : Option.Rel AlikeSchemas (fields.lookup "schemas") (others.lookup "schemas")) :
      AlikeComponents (.obj fields) (.obj others)

/-- Documents that differ only in members that are not read, at any depth. -/
inductive AlikeDocument : Json → Json → Prop where
  | mk {root other : List (String × Json)}
      (version : root.lookup "openapi" = other.lookup "openapi")
      (info : Option.Rel AlikeInfo (root.lookup "info") (other.lookup "info"))
      (components : Option.Rel AlikeComponents (root.lookup "components")
        (other.lookup "components")) : AlikeDocument (.obj root) (.obj other)

variable {root other schemas : List (String × Json)} {path : String}

/-- Components that are well formed are read one by one. -/
theorem readComponents_of_wellFormed (path : String) (h : ∀ e ∈ schemas, WellFormed e.2) :
    ∃ nodes, readComponents path schemas = .ok nodes ∧
      nodes.map Prod.fst = schemas.map Prod.fst ∧
      List.Forall₂ (fun w node => Node.read? w = some node) (schemas.map Prod.snd)
        (nodes.map Prod.snd) := by
  induction schemas with
  | nil => exact ⟨[], rfl, rfl, .nil⟩
  | cons e rest ih =>
    obtain ⟨name, v⟩ := e
    obtain ⟨hv, hrest⟩ := List.forall_mem_cons.1 h
    obtain ⟨node, hnode⟩ := Option.isSome_iff_exists.1 ((Node.isSome_read? v).2 hv)
    obtain ⟨nodes, hnodes, hnames, hread⟩ := ih hrest
    refine ⟨(name, node) :: nodes, ?_, congrArg (name :: ·) hnames, .cons hnode hread⟩
    rw [readComponents, hnodes]
    simp only [hnode]
    rfl

/-- The first component that is malformed is reported. -/
theorem readComponents_of_malformed (path : String) {before after : List (String × Json)}
    {name : String} {w : Json} (hb : ∀ e ∈ before, WellFormed e.2) (hw : ¬WellFormed w) :
    readComponents path (before ++ (name, w) :: after) =
      .error (.invalidSchema s!"{path}.{name}") := by
  induction before with
  | nil =>
    rw [← Node.isSome_read?, Option.not_isSome_iff_eq_none] at hw
    rw [List.nil_append, readComponents]
    simp only [hw]
  | cons e rest ih =>
    obtain ⟨other, v⟩ := e
    obtain ⟨hv, hrest⟩ := List.forall_mem_cons.1 hb
    obtain ⟨node, hnode⟩ := Option.isSome_iff_exists.1 ((Node.isSome_read? v).2 hv)
    rw [List.cons_append, readComponents, ih hrest]
    simp only [hnode]
    rfl

/-- Unless all components are well formed, there is a first one that is not. -/
theorem wellFormed_or_exists_first (schemas : List (String × Json)) :
    (∀ e ∈ schemas, WellFormed e.2) ∨ ∃ before name w after,
      schemas = before ++ (name, w) :: after ∧ (∀ e ∈ before, WellFormed e.2) ∧
        ¬WellFormed w := by
  induction schemas with
  | nil => exact .inl nofun
  | cons e rest ih =>
    obtain ⟨name, v⟩ := e
    by_cases hv : WellFormed v
    · rcases ih with hrest | ⟨before, other, w, after, rfl, hbefore, hw⟩
      · exact .inl (List.forall_mem_cons.2 ⟨hv, hrest⟩)
      · exact .inr ⟨(name, v) :: before, other, w, after, rfl,
          List.forall_mem_cons.2 ⟨hv, hbefore⟩, hw⟩
    · exact .inr ⟨[], name, v, rest, rfl, nofun, hv⟩

theorem readComponents_congr {others : List (String × Json)}
    (hnames : schemas.map Prod.fst = others.map Prod.fst)
    (hnodes : List.Forall₂ Alike (schemas.map Prod.snd) (others.map Prod.snd)) :
    readComponents path schemas = readComponents path others := by
  induction schemas generalizing others with
  | nil =>
    cases others with
    | nil => rfl
    | cons => cases hnames
  | cons first rest ih =>
    cases others with
    | nil => cases hnames
    | cons other others =>
      obtain ⟨name, v⟩ := first
      obtain ⟨name', w⟩ := other
      obtain ⟨hname, hrest⟩ := List.cons.inj hnames
      obtain ⟨halike, hinner⟩ := List.forall₂_cons.1 hnodes
      cases hname
      rw [readComponents, readComponents, Node.read?_eq_of_alike halike, ih hrest hinner]

theorem firstOfEach_eq_self {α : Type} {entries : List (String × α)}
    (h : (entries.map Prod.fst).Nodup) : firstOfEach entries = entries := by
  induction entries with
  | nil => rfl
  | cons e rest ih =>
    obtain ⟨name, a⟩ := e
    obtain ⟨hname, hrest⟩ := List.nodup_cons.1 h
    rw [firstOfEach, ih hrest, List.filter_eq_self.2]
    intro e he
    have hne : e.1 ≠ name := by
      rintro rfl
      exact hname (List.mem_map.2 ⟨e, he, rfl⟩)
    simpa using hne

namespace Document

theorem versionOf_eq_iff {version : String} :
    versionOf (.obj root) = version ↔ Declared root version := by
  rw [versionOf, get?]
  constructor
  · rintro rfl
    cases h : root.lookup "openapi" with
    | none => exact .none (by simp [h])
    | some v =>
      cases v with
      | str text => exact .text h
      | _ => exact .none (by simp [h])
  · intro h
    cases h with
    | text h => rw [h]; rfl
    | none h =>
      cases hv : root.lookup "openapi" with
      | none => rfl
      | some v =>
        cases v with
        | str text => exact absurd hv (h text)
        | _ => rfl

theorem startsWith_versionOf_iff :
    (versionOf (.obj root)).startsWith "3." ↔ Supported root := by
  rw [String.startsWith_string_iff]
  constructor
  · rintro ⟨minor, hminor⟩
    have hdeclared := versionOf_eq_iff.1 (Eq.refl (versionOf (.obj root)))
    have hversion : versionOf (.obj root) = "3." ++ String.ofList minor := by
      rw [← String.toList_inj, String.toList_append]
      simpa using hminor.symm
    generalize versionOf (.obj root) = version at *
    cases hdeclared with
    | text h => exact ⟨String.ofList minor, hversion ▸ h⟩
    | none h => cases hminor
  · rintro ⟨minor, h⟩
    rw [versionOf_eq_iff.2 (.text h), String.toList_append]
    exact List.prefix_append _ _

/-- On the way to the components, only `schemas` counts. -/
theorem readNodes_eq (hc : Declares root schemas) :
    readNodes (.obj root) = readComponents "components.schemas" schemas := by
  rw [readNodes, get?]
  cases hc with
  | noComponents hnone =>
    rw [hnone]
    rfl
  | noSchemas hobject hnone =>
    rw [hobject]
    simp only [readComponentsPart, hnone, readComponents]
  | schemas hobject hdeclared =>
    rw [hobject]
    simp only [readComponentsPart, hdeclared, readSchemas]

variable [Libraries]

theorem read_of_supported (h : Supported root) : read (.obj root) =
    (readHeader (.obj root)).bind fun info => (readNodes (.obj root)).map fun nodes =>
      ⟨versionOf (.obj root), info, firstOfEach nodes, firstOfEach_nodup nodes⟩ := by
  rw [← startsWith_versionOf_iff] at h
  simp only [read, h, bind]
  cases readHeader (.obj root) with
  | error e => rfl
  | ok info => cases readNodes (.obj root) <;> rfl

variable [LawfulHeader]

/-- A header of the form of one is read. -/
theorem exists_readHeader {v : Json} (h : root.lookup "info" = some v) (hv : InfoForm v) :
    ∃ info, readHeader (.obj root) = .ok info := by
  obtain ⟨info, hinfo⟩ := Option.isSome_iff_exists.1 ((LawfulHeader.isSome_info? v).2 hv)
  rw [readHeader, get?, h]
  exact ⟨info, by simp only [hinfo]⟩

/-- A document that passes the checks is read, with the components of the value in its order. -/
theorem read_of_readable (hc : Declares root schemas) (h : Readable root schemas) :
    ∃ info nodes, nodes.map Prod.fst = schemas.map Prod.fst ∧
      List.Forall₂ (fun w node => Node.read? w = some node) (schemas.map Prod.snd)
        (nodes.map Prod.snd) ∧
      read (.obj root) =
        .ok ⟨versionOf (.obj root), info, firstOfEach nodes, firstOfEach_nodup nodes⟩ := by
  obtain ⟨v, hinfo, hv⟩ := h.header
  obtain ⟨info, hheader⟩ := exists_readHeader hinfo hv
  obtain ⟨nodes, hnodes, hnames, hread⟩ :=
    readComponents_of_wellFormed "components.schemas" h.wellFormed
  refine ⟨info, nodes, hnames, hread, ?_⟩
  rw [read_of_supported h.supported, hheader, readNodes_eq hc, hnodes]
  rfl

omit [Libraries] [LawfulHeader] in
theorem invalidSchema_path (name : String) (h : path = "components.schemas") :
    s!"{path}.{name}" = "components.schemas." ++ name := by
  have hpath : path ++ "." = "components.schemas." := by
    rw [h]
    decide
  exact congrArg (fun text : String => text ++ name) hpath

/-- The first check that fails is reported. -/
theorem read_of_firstFailure (hc : Declares root schemas) {e : DocumentError}
    (h : FirstFailure root schemas e) : read (.obj root) = .error e := by
  cases h with
  | version hunsupported hdeclared =>
    rw [← startsWith_versionOf_iff] at hunsupported
    rw [← versionOf_eq_iff.2 hdeclared]
    simp [read, hunsupported, bind, Except.bind]
  | missing hsupported hinfo =>
    rw [read_of_supported hsupported, readHeader, get?, hinfo]
    rfl
  | header hsupported hinfo hv =>
    rw [← LawfulHeader.isSome_info?, Option.not_isSome_iff_eq_none] at hv
    rw [read_of_supported hsupported, readHeader, get?, hinfo]
    simp only [hv]
    rfl
  | schema hsupported hinfo hv hsplit hbefore hw =>
    obtain ⟨info, hheader⟩ := exists_readHeader hinfo hv
    rw [read_of_supported hsupported, hheader, readNodes_eq hc, hsplit,
      readComponents_of_malformed _ hbefore hw, invalidSchema_path _ rfl]
    rfl

omit [LawfulHeader] in
/-- A document passes the checks, or there is a first one that it fails. -/
theorem readable_or_exists_firstFailure (root schemas : List (String × Json)) :
    Readable root schemas ∨ ∃ e, FirstFailure root schemas e := by
  by_cases hsupported : Supported root
  · cases hinfo : root.lookup "info" with
    | none => exact .inr ⟨_, .missing hsupported hinfo⟩
    | some v =>
      by_cases hv : InfoForm v
      · rcases wellFormed_or_exists_first schemas with hschemas |
          ⟨before, name, w, after, hsplit, hbefore, hw⟩
        · exact .inl ⟨hsupported, ⟨v, hinfo, hv⟩, hschemas⟩
        · exact .inr ⟨_, .schema hsupported hinfo hv hsplit hbefore hw⟩
      · exact .inr ⟨_, .header hsupported hinfo hv⟩
  · exact .inr ⟨_, .version hsupported (versionOf_eq_iff.1 rfl)⟩

theorem readable_of_read (hc : Declares root schemas) {d : Document}
    (h : read (.obj root) = .ok d) : Readable root schemas := by
  rcases readable_or_exists_firstFailure root schemas with hreadable | ⟨e, he⟩
  · exact hreadable
  · cases h.symm.trans (read_of_firstFailure hc he)

theorem exists_read_iff (hc : Declares root schemas) :
    (∃ d, read (.obj root) = .ok d) ↔ Readable root schemas := by
  constructor
  · rintro ⟨d, hd⟩
    exact readable_of_read hc hd
  · intro h
    obtain ⟨_, _, -, -, hd⟩ := read_of_readable hc h
    exact ⟨_, hd⟩

theorem read_eq_error_iff (hc : Declares root schemas) {e : DocumentError} :
    read (.obj root) = .error e ↔ FirstFailure root schemas e := by
  constructor
  · intro h
    rcases readable_or_exists_firstFailure root schemas with hreadable | ⟨e', he'⟩
    · obtain ⟨_, _, -, -, hd⟩ := read_of_readable hc hreadable
      cases h.symm.trans hd
    · cases h.symm.trans (read_of_firstFailure hc he')
      exact he'
  · exact read_of_firstFailure hc

/-- The components that are read are those of the value, in its order. -/
theorem components_of_read (hc : Declares root schemas) (hn : (schemas.map Prod.fst).Nodup)
    {d : Document} (h : read (.obj root) = .ok d) :
    d.names = schemas.map Prod.fst ∧
      List.Forall₂ (fun v node => Node.read? v = some node) (schemas.map Prod.snd)
        (d.components.map Prod.snd) := by
  obtain ⟨info, nodes, hnames, hread, hd⟩ := read_of_readable hc (readable_of_read hc h)
  cases h.symm.trans hd
  change (firstOfEach nodes).map Prod.fst = _ ∧
    List.Forall₂ _ _ ((firstOfEach nodes).map Prod.snd)
  rw [firstOfEach_eq_self (hnames ▸ hn)]
  exact ⟨hnames, hread⟩

omit [Libraries] [LawfulHeader] in
theorem readSchemas_congr {v w : Json} (h : AlikeSchemas v w) :
    readSchemas path v = readSchemas path w := by
  cases h with
  | same => rfl
  | object hnames hnodes => exact readComponents_congr hnames hnodes

omit [Libraries] [LawfulHeader] in
theorem readComponentsPart_congr {v w : Json} (h : AlikeComponents v w) :
    readComponentsPart v = readComponentsPart w := by
  cases h with
  | same => rfl
  | @object fields others hschemas =>
    generalize hv : fields.lookup "schemas" = v at hschemas
    generalize hw : others.lookup "schemas" = w at hschemas
    cases hschemas with
    | none => simp only [readComponentsPart, hv, hw]
    | some halike => simp only [readComponentsPart, hv, hw, readSchemas_congr halike]

theorem info?_eq_of_alike {v w : Json} (h : AlikeInfo v w) :
    Libraries.info? v = Libraries.info? w := by
  cases h with
  | same => rfl
  | object hkeywords => exact LawfulHeader.info?_congr hkeywords

/-- A document depends on nothing but what is read. -/
theorem read_eq_of_alike {v w : Json} (h : AlikeDocument v w) : read v = read w := by
  cases h with
  | @mk root other hversion hinfo hcomponents =>
    have hversions : versionOf (.obj root) = versionOf (.obj other) := by
      rw [versionOf, versionOf, get?, get?, hversion]
    have hheaders : readHeader (.obj root) = readHeader (.obj other) := by
      rw [readHeader, readHeader, get?, get?]
      generalize root.lookup "info" = v at hinfo ⊢
      generalize other.lookup "info" = w at hinfo ⊢
      cases hinfo with
      | none => rfl
      | some halike => simp only [info?_eq_of_alike halike]
    have hnodes : readNodes (.obj root) = readNodes (.obj other) := by
      rw [readNodes, readNodes, get?, get?]
      generalize root.lookup "components" = v at hcomponents ⊢
      generalize other.lookup "components" = w at hcomponents ⊢
      cases hcomponents with
      | none => rfl
      | some halike => exact readComponentsPart_congr halike
    rw [read, read, hversions, hheaders, hnodes]

/-- What reading makes of a root and its component schemas. -/
structure Reads (root schemas : List (String × Json)) : Prop where
  succeeds_iff : (∃ d, read (.obj root) = .ok d) ↔ Readable root schemas
  fails_iff : ∀ e, read (.obj root) = .error e ↔ FirstFailure root schemas e
  names : ∀ d, read (.obj root) = .ok d → d.names = schemas.map Prod.fst
  follows : ∀ d, read (.obj root) = .ok d →
    List.Forall₂ Follows (schemas.map Prod.snd) (d.components.map Prod.snd)
  independent : ∀ v, AlikeDocument (.obj root) v → read (.obj root) = read v

/-- A document is read exactly if its version, its header and its component schemas pass the
checks, the first failure is reported, the order of names is kept at every depth, and nothing else
counts. -/
theorem reads (hc : Declares root schemas) (hn : (schemas.map Prod.fst).Nodup) :
    Reads root schemas where
  succeeds_iff := exists_read_iff hc
  fails_iff _ := read_eq_error_iff hc
  names _ h := (components_of_read hc hn h).1
  follows _ h := (components_of_read hc hn h).2.imp fun _ _ => Node.follows_of_read?
  independent _ := read_eq_of_alike

end Document

/-- A reference with a member beside it that has no admissible value, and a property before it. -/
def petSchemas : List (String × Json) :=
  [("Tag", .obj [("type", .str "string"), ("example", .null)]),
    ("Pet", .obj [("properties", .obj [("name", .obj [("type", .str "string")]),
      ("tag", .obj [("$ref", .str "#/components/schemas/Tag"), ("type", .str "tag")])])])]

def petRoot (schemas : List (String × Json)) : List (String × Json) :=
  [("openapi", .str "3.1.0"), ("info", .obj [("title", .str "Pets"), ("version", .str "1")]),
    ("components", .obj [("schemas", .obj schemas)])]

theorem supported_petRoot (schemas : List (String × Json)) : Supported (petRoot schemas) :=
  ⟨"1.0", rfl⟩

theorem petRoot_header (schemas : List (String × Json)) :
    ∃ v, (petRoot schemas).lookup "info" = some v ∧ InfoForm v :=
  ⟨_, rfl, .mk rfl rfl nofun nofun nofun nofun nofun⟩

theorem reads_member_beside_reference :
    Declares (petRoot petSchemas) petSchemas ∧ (petSchemas.map Prod.fst).Nodup ∧
    (∃ d, Document.read (.obj (petRoot petSchemas)) = .ok d ∧ d.names = ["Tag", "Pet"]) ∧
    Document.read (.obj (petRoot petSchemas)) =
      Document.read (.obj (("paths", .null) :: petRoot petSchemas)) := by
  have hdeclares : Declares (petRoot petSchemas) petSchemas := .schemas rfl rfl
  have hnames : (petSchemas.map Prod.fst).Nodup := by decide
  have hreads := Document.reads hdeclares hnames
  have htype : ∀ kind, ("type", kind) ∈ Schema.grammar → Admissible kind (.str "string") := by
    intro kind hkind
    simp [Schema.grammar] at hkind
    rw [hkind]
    exact .typeName (.plain .string)
  have htag : WellFormed (.obj [("type", .str "string"), ("example", .null)]) := by
    refine .object (List.forall_mem_cons.2 ⟨htype, List.forall_mem_singleton.2 ?_⟩)
    intro kind hkind
    simp [Schema.grammar] at hkind
  have hname : WellFormed (.obj [("type", .str "string")]) :=
    .object (List.forall_mem_singleton.2 htype)
  have hproperties : Admissible .namedNodes (.obj [("name", .obj [("type", .str "string")]),
      ("tag", .obj [("$ref", .str "#/components/schemas/Tag"), ("type", .str "tag")])]) :=
    .namedNodes (List.forall_mem_cons.2 ⟨hname, List.forall_mem_singleton.2 (.ref rfl)⟩)
  have hpet : ∀ e ∈ petSchemas, WellFormed e.2 := by
    refine List.forall_mem_cons.2 ⟨htag, List.forall_mem_singleton.2 (.object ?_)⟩
    refine List.forall_mem_singleton.2 fun kind hkind => ?_
    simp [Schema.grammar] at hkind
    rw [hkind]
    exact hproperties
  obtain ⟨d, hd⟩ := hreads.succeeds_iff.2 ⟨supported_petRoot _, petRoot_header _, hpet⟩
  refine ⟨hdeclares, hnames, ⟨d, hd, hreads.names d hd⟩, hreads.independent _ ?_⟩
  exact .mk rfl (.some (.same _)) (.some (.same _))

/-- A list of values for all keywords. -/
def valueList : List Json :=
  [.null, .null, .null, .null, .obj [], .arr [], .arr [], .arr [], .arr [], .null, .null, .null,
    .null, .null, .arr [], .null, .null, .null, .null, .null, .null, .null, .null, .null, .null]

/-- A component that is a list is read, although it is no object. -/
theorem valueList_read :
    Declares (petRoot [("S", .arr valueList)]) [("S", .arr valueList)] ∧
    (∃ d, Document.read (.obj (petRoot [("S", .arr valueList)])) = .ok d) ∧
    ∀ fields, Json.arr valueList ≠ .obj fields := by
  have hdeclares : Declares (petRoot [("S", .arr valueList)]) [("S", .arr valueList)] :=
    .schemas rfl rfl
  have hlist : WellFormed (.arr valueList) := by
    refine .list rfl ?_
    simp only [valueList, Schema.grammar, List.zip_cons_cons, List.zip_nil_left,
      List.forall_mem_cons]
    have hnodes : ∀ v ∈ ([] : List Json), WellFormed v := List.forall_mem_nil _
    exact ⟨.null rfl, .null rfl, .null rfl, .null rfl, .namedNodes (List.forall_mem_nil _),
      .names (List.forall_mem_nil _), .nodes hnodes, .nodes hnodes, .nodes hnodes, .null rfl,
      .null rfl, .null rfl, .null rfl, .any _, .values _, .null rfl, .null rfl, .null rfl,
      .null rfl, .null rfl, .null rfl, .null rfl, .null rfl, .null rfl, .null rfl,
      List.forall_mem_nil _⟩
  refine ⟨hdeclares, (Document.exists_read_iff hdeclares).2 ⟨supported_petRoot _,
    petRoot_header _, ?_⟩, fun _ h => by cases h⟩
  rintro e he
  rw [List.mem_singleton.1 he]
  exact hlist

end SchemaModel
