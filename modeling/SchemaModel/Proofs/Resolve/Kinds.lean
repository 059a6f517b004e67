import Mathlib.Logic.IsEmpty.Defs
import SchemaModel.Proofs.Computed
import SchemaModel.Proofs.Resolve.Enums

/-!
The kind of a property against its type and what the type names. The kind is told from the keywords
that apply to the declaration, the type from a walk of its own. The two agree unless the declaration
hides an enum: its type is the name of one, but the keywords that apply to it list no values
(`Document.resolve_kindAgrees_iff`). This happens where unions with `null` stand beside values or
directly inside one another, since only the outermost alternative is read.
-/

namespace SchemaModel

namespace Document

variable {d : Document} {context target : String} {s e : Schema} {node : Node}

/-- The node is an enum, and the keywords that apply to it list no values. -/
inductive HidesEnum (d : Document) (context : String) : Node → Prop where
  | reference {target name : String} {s inner : Schema} {keyword : UnionKeyword} {index : Nat}
      (leads : d.resolveRef context target = .ok name)
      (definition : d.definition? name = some s) (enum : d.IsEnum s)
      (union : s.nullableUnion? = some ⟨keyword, index, .schema inner⟩)
      (unread : ¬inner.hasEnumValues) : HidesEnum d context (.ref target)
  | wrapper {s : Schema} {target : String} (wraps : s.singleAllOfRef? = some target)
      (hidden : HidesEnum d context (.ref target)) : HidesEnum d context (.schema s)
  | alternative {s : Schema} {u : NullableUnion} (union : s.category = .nullableOf u)
      (hidden : HidesEnum d context u.inner) : HidesEnum d context (.schema s)
  | beside {s e : Schema} {u : NullableUnion} (values : s.hasEnumValues)
      (union : s.nullableUnion? = some u) (applies : d.effective context u.inner = .ok e)
      (unread : ¬e.hasEnumValues) : HidesEnum d context (.schema s)

theorem singleAllOfRef_of_category (hc : s.category ≠ .object) : s.singleAllOfRef? = none := by
  cases hw : s.singleAllOfRef? with
  | none => rfl
  | some target => exact absurd (Schema.category_of_singleAllOfRef hw) hc

/-- A reference reads an enum as such, unless the component is a union with `null`. -/
theorem hidesEnum_ref_iff {name : String} (hr : d.resolveRef context target = .ok name)
    (hs : d.definition? name = some s) (halias : (Node.schema s).aliasTarget? = none) :
    d.HidesEnum context (.ref target) ↔ d.IsEnum s ∧ ¬s.read.hasEnumValues := by
  constructor
  · intro h
    cases h with
    | reference leads definition enum union unread =>
      rw [hr, Except.ok.injEq] at leads
      subst leads
      rw [hs, Option.some.injEq] at definition
      subst definition
      refine ⟨enum, ?_⟩
      rwa [Schema.read, union]
  · rintro ⟨henum, hread⟩
    cases hu : s.nullableUnion? with
    | none =>
      rw [Schema.read, hu] at hread
      rcases henum.category with hc | ⟨u, hc⟩
      · exact absurd (Schema.category_eq_enum_iff.1 hc) hread
      · rw [Schema.category_nullableOf hc] at hu
        cases hu
    | some u =>
      obtain ⟨keyword, index, inner⟩ := u
      cases inner with
      | ref path =>
        simp only [Node.aliasTarget?, hu] at halias
        cases halias
      | schema inner =>
        rw [Schema.read, hu] at hread
        exact .reference hr hs henum hu hread

theorem hidesEnum_wrapper_iff (hw : s.singleAllOfRef? = some target) :
    d.HidesEnum context (.schema s) ↔ d.HidesEnum context (.ref target) := by
  refine ⟨fun h => ?_, .wrapper hw⟩
  have hc := Schema.category_of_singleAllOfRef hw
  cases h with
  | wrapper wraps hidden =>
    rw [hw, Option.some.injEq] at wraps
    rwa [wraps]
  | alternative union hidden =>
    rw [hc] at union
    cases union
  | beside values union applies unread =>
    rw [Schema.category_eq_enum_iff.2 values] at hc
    cases hc

theorem hidesEnum_alternative_iff {u : NullableUnion} (hc : s.category = .nullableOf u) :
    d.HidesEnum context (.schema s) ↔ d.HidesEnum context u.inner := by
  refine ⟨fun h => ?_, .alternative hc⟩
  cases h with
  | wrapper wraps hidden =>
    rw [Schema.category_of_singleAllOfRef wraps] at hc
    cases hc
  | alternative union hidden =>
    rw [hc] at union
    cases union
    exact hidden
  | beside values union applies unread =>
    rw [Schema.category_eq_enum_iff.2 values] at hc
    cases hc

theorem effective_wrapper (hw : s.singleAllOfRef? = some target)
    (h : d.effective context (.schema s) = .ok e) :
    ∃ inner, d.effective context (.ref target) = .ok inner ∧
      e.hasEnumValues = inner.hasEnumValues := by
  simp only [effective_schema, hw] at h
  obtain ⟨inner, hinner, h⟩ := bind_eq_ok_iff.1 h
  cases h
  exact ⟨inner, hinner, rfl⟩

theorem effective_alternative {u : NullableUnion} (hw : s.singleAllOfRef? = none)
    (hu : s.nullableUnion? = some u) (h : d.effective context (.schema s) = .ok e) :
    ∃ inner, d.effective context u.inner = .ok inner ∧ e.hasEnumValues = inner.hasEnumValues := by
  simp only [effective_schema, hw, hu] at h
  obtain ⟨inner, hinner, h⟩ := bind_eq_ok_iff.1 h
  cases h
  exact ⟨inner, hinner, rfl⟩

/-- A hidden enum is not read. -/
theorem HidesEnum.unread (h : d.HidesEnum context node)
    (he : d.effective context node = .ok e) : ¬e.hasEnumValues := by
  induction h generalizing e with
  | reference leads definition enum union unread =>
    rw [effective_ref leads definition, Except.ok.injEq, Schema.read, union] at he
    rwa [← he]
  | wrapper wraps hidden ih =>
    obtain ⟨inner, hinner, hsame⟩ := effective_wrapper wraps he
    rw [hsame]
    exact ih hinner
  | @alternative s u union hidden ih =>
    have hw : s.singleAllOfRef? = none := singleAllOfRef_of_category (by simp [union])
    obtain ⟨inner, hinner, hsame⟩ :=
      effective_alternative hw (Schema.category_nullableOf union) he
    rw [hsame]
    exact ih hinner
  | @beside s _ u values union applies unread =>
    have hc := Schema.category_eq_enum_iff.2 values
    have hw : s.singleAllOfRef? = none := singleAllOfRef_of_category (by simp [hc])
    obtain ⟨inner, hinner, hsame⟩ := effective_alternative hw union he
    rw [applies, Except.ok.injEq] at hinner
    rwa [hsame, ← hinner]

/-- What lists no values and is no union with `null` hides nothing. -/
theorem not_enum_of_category (hw : s.singleAllOfRef? = none) (henum : s.category ≠ .enum)
    (hunion : ∀ u, s.category ≠ .nullableOf u) (he : d.effective context (.schema s) = .ok e) :
    ¬(e.hasEnumValues ∨ d.HidesEnum context (.schema s)) := by
  have hvalues : ¬s.hasEnumValues := fun h => henum (Schema.category_eq_enum_iff.2 h)
  rw [effective_own hw (Schema.nullableUnion_of_category henum hunion), Except.ok.injEq] at he
  subst he
  rintro (h | h)
  · exact hvalues h
  · cases h with
    | wrapper wraps hidden =>
      rw [hw] at wraps
      cases wraps
    | alternative union hidden => exact hunion _ union
    | beside values union applies unread => exact hvalues values

end Document

section

variable [Libraries]

namespace Resolver

variable {scope : Scope} {order : List String} {r : Resolver}
  (hr : Complete scope order r) (hn : r.inlineRenames = [])
  (hall : ∀ name ∈ scope.document.names, name ∈ order)
  {context base : String} {pointer : Pointer} {type : TypeRef} {inlines : List Inline} {e : Schema}

include hr hn hall

theorem Complete.reference_isEnum_iff {target name : String}
    (hleads : scope.document.resolveRef context target = .ok name)
    (ht : (scope.componentType [] name).outcome = .ok type)
    (he : scope.document.effective context (.ref target) = .ok e) :
    (∃ name, type = .named name ∧ r.toGraph.IsEnum name) ↔
      e.hasEnumValues ∨ scope.document.HidesEnum context (.ref target) := by
  have hc := Document.canonical_of_resolveRef hleads
  obtain ⟨s, hs, halias⟩ := hc.definition
  rw [Document.effective_ref hleads hs, Except.ok.injEq] at he
  subst he
  rw [hr.componentType_isEnum_iff hn hall hc hs ht, Document.hidesEnum_ref_iff hleads hs halias]
  constructor
  · intro henum
    by_cases hread : s.read.hasEnumValues
    · exact .inl hread
    · exact .inr ⟨henum, hread⟩
  · rintro (hread | ⟨henum, -⟩)
    · exact Document.isEnum_of_read hread
    · exact henum

/-- The type of a node is the name of an enum exactly if the keywords that apply to the node list
values or the node hides an enum. -/
theorem Complete.typeNode_isEnum_iff {node : Node}
    (h : (scope.typeNode [] context base node pointer).outcome = .ok (type, inlines))
    (hv : ∀ i ∈ inlines, scope.Visits order (.ofInline i))
    (he : scope.document.effective context node = .ok e) :
    (∃ name, type = .named name ∧ r.toGraph.IsEnum name) ↔
      e.hasEnumValues ∨ scope.document.HidesEnum context node := by
  replace h := Scope.typed_of_typeNode h
  induction h generalizing e with
  | reference hleads ht => exact hr.reference_isEnum_iff hn hall hleads ht he
  | wrapper hw hleads ht =>
    obtain ⟨inner, hinner, hsame⟩ := Document.effective_wrapper hw he
    rw [hsame, Document.hidesEnum_wrapper_iff hw]
    exact hr.reference_isEnum_iff hn hall hleads ht hinner
  | @enum _ _ s hw hc =>
    have hs := Schema.category_eq_enum_iff.1 hc
    have henum := (hr.isEnum_iff hn (hv _ List.mem_cons_self)).2 (.values hs)
    refine ⟨fun _ => ?_, fun _ => ⟨_, rfl, henum⟩⟩
    cases hu : s.nullableUnion? with
    | none =>
      rw [Document.effective_own hw hu, Except.ok.injEq] at he
      exact .inl (he ▸ hs)
    | some u =>
      obtain ⟨inner, hinner, hsame⟩ := Document.effective_alternative hw hu he
      by_cases hread : inner.hasEnumValues
      · exact .inl (hsame.trans hread)
      · exact .inr (.beside hs hu hinner hread)
  | nullable hw hc _ ih =>
    obtain ⟨inner, hinner, hsame⟩ :=
      Document.effective_alternative hw (Schema.category_nullableOf hc) he
    rw [hsame, Document.hidesEnum_alternative_iff hc]
    exact ih hv hinner
  | @object _ _ s hw hc =>
    have hobject : _ ↔ scope.document.IsEnum s := hr.isEnum_iff hn (hv _ List.mem_cons_self)
    have hplain := Document.not_enum_of_category hw (by simp [hc]) (by simp [hc]) he
    refine iff_of_false ?_ hplain
    rintro ⟨name, hname, henum⟩
    cases hname
    exact Document.not_isEnum (by simp [hc]) (by simp [hc]) (hobject.1 henum)
  | array hw hc | map hw hc | anyArray hw hc | anyMap hw hc | union hw hc | primitive hw hc =>
    have hplain := Document.not_enum_of_category hw (by simp [hc]) (by simp [hc]) he
    refine iff_of_false ?_ hplain
    rintro ⟨name, hname, -⟩
    cases hname

end Resolver

namespace Graph

variable {g : Graph} {name : String}

/-- The kind of a property is the one for its type and for what the type names. -/
structure KindAgrees (g : Graph) (p : ResolvedProperty) : Prop where
  collection : (∃ constraints, p.kind = .collection constraints) ↔ ∃ items, p.type = .array items
  map : p.kind = .map ↔ ∃ values, p.type = .map values
  field : (∃ constraints, p.kind = .field constraints) ↔
    (∃ type, p.type = .primitive type) ∨ ∃ name, p.type = .named name ∧ g.IsEnum name
  target : ∀ name, p.kind.target? = some name ↔ p.type = .named name ∧ g.IsObject name

omit [Libraries] in
theorem HasNamed.isObject_iff (h : g.HasNamed name) : g.IsObject name ↔ ¬g.IsEnum name := by
  obtain ⟨s, hs, hn⟩ := h
  simp only [IsObject, IsEnum, hs, Option.some.injEq, exists_eq_left']
  cases hshape : s.shape <;> simp_all [Shape.isNamed, Shape.object?, Shape.enum?]

end Graph

/-- The kinds that properties of a type may have, given the keywords that apply to them. -/
inductive Scope.KindFor (e : Schema) : TypeRef → PropertyKind → Prop where
  | enum {name : String} (values : e.hasEnumValues) : KindFor e (.named name) (.field .none)
  | object {name : String} {kind : PropertyKind} (empty : ¬e.hasEnumValues)
      (target : kind = .objectRef name ∨ kind = .objectInlined name) : KindFor e (.named name) kind
  | array {items : TypeRef} (constraints : CollectionConstraints) :
      KindFor e (.array items) (.collection constraints)
  | map {values : TypeRef} : KindFor e (.map values) .map
  | primitive {type : Primitive} (constraints : FieldConstraints) :
      KindFor e (.primitive type) (.field constraints)

theorem Scope.kindFor_of_propertyKind {owner key : String} {node : Node} {type : TypeRef}
    {e : Schema} {kind : PropertyKind}
    (h : (propertyKind owner key node type e).outcome = .ok kind) : KindFor e type kind := by
  unfold propertyKind at h
  cases type with
  | named name =>
    dsimp only at h
    split at h
    · rename_i he
      cases h
      exact .enum he
    · rename_i he
      split at h
      · cases h
        exact .object he (.inl rfl)
      · cases h
        exact .object he (.inr rfl)
  | array items =>
    cases h
    exact .array _
  | map values =>
    cases h
    exact .map
  | primitive type =>
    simp only [Traced.outcome_bind_eq_ok_iff, Traced.outcome_pure] at h
    obtain ⟨constraints, -, h⟩ := h
    cases h
    exact .primitive constraints

omit [Libraries] in
/-- If only enums have keywords that list values, a kind agrees if those of an enum do. -/
theorem Graph.kindAgrees_iff {g : Graph} {p : ResolvedProperty} {e : Schema}
    (hk : Scope.KindFor e p.type p.kind)
    (hnamed : ∀ name, p.type = .named name → g.HasNamed name)
    (hread : e.hasEnumValues → ∃ name, p.type = .named name ∧ g.IsEnum name) :
    g.KindAgrees p ↔ ((∃ name, p.type = .named name ∧ g.IsEnum name) → e.hasEnumValues) := by
  obtain ⟨key, type, kind, nullable, default, description, inlines⟩ := p
  cases hk with
  | @enum name values =>
    obtain ⟨other, hother, henum⟩ := hread values
    cases hother
    refine iff_of_true ?_ fun _ => values
    have hobject : ¬g.IsObject name := fun h => (hnamed name rfl).isObject_iff.1 h henum
    constructor <;> simp [henum, hobject, PropertyKind.target?]
  | @object name _ empty target =>
    have hobject := (hnamed name rfl).isObject_iff
    have htarget : kind.target? = some name := by rcases target with rfl | rfl <;> rfl
    constructor
    · rintro hagrees ⟨other, hother, henum⟩
      cases hother
      exact absurd henum (hobject.1 ((hagrees.target name).1 htarget).2)
    · intro h
      have henum : ¬g.IsEnum name := fun henum => empty (h ⟨name, rfl, henum⟩)
      rcases target with rfl | rfl <;> constructor <;>
        simp [henum, hobject, PropertyKind.target?, eq_comm]
  | array constraints =>
    refine iff_of_true ?_ (by simp)
    constructor <;> simp [PropertyKind.target?]
  | map =>
    refine iff_of_true ?_ (by simp)
    constructor <;> simp [PropertyKind.target?]
  | primitive constraints =>
    refine iff_of_true ?_ (by simp)
    constructor <;> simp [PropertyKind.target?]

/-- In a graph the kind of a property agrees with its type and with what the type names exactly if
the declaration that the property comes from hides no enum. -/
theorem Document.resolve_kindAgrees_iff {d : Document} {order : List String} {g : Graph}
    (hall : ∀ name ∈ d.names, name ∈ order) (h : d.resolve order = .ok g) :
    ∃ r, Resolver.LastPass d order r ∧ g = r.toGraph ∧
      ∀ name s o, g.schemas.find? name = some s → s.shape = .object o → ∀ p ∈ o.properties,
        r.scope.Declares p ∧ ∀ owner pointer node,
          (r.scope.resolveProperty owner pointer p.key node).outcome = .ok p →
            (g.KindAgrees p ↔ ¬d.HidesEnum owner node) := by
  obtain ⟨r, hlast, rfl⟩ := lastPass_of_resolve h
  obtain ⟨renames, hrounds, hpass, hn⟩ := hlast
  have hr := Resolver.pass_complete hpass
  have hscope : r.scope = ⟨d, renames⟩ := hr.sound.scope_eq
  refine ⟨r, ⟨renames, hrounds, hpass, hn⟩, rfl, ?_⟩
  rw [hscope]
  intro name s o hs ho p hp
  obtain ⟨hsourced, hinside⟩ := hr.object_of_find? hn hs ho
  refine ⟨hsourced.declares p hp, ?_⟩
  intro owner pointer node hproperty
  obtain ⟨e, -, ht, he, hk, -⟩ := Scope.resolveProperty_eq_ok hproperty
  have hv : ∀ i ∈ p.inlines, Scope.Visits ⟨d, renames⟩ order (.ofInline i) := by
    intro i hi
    exact hinside i (List.mem_append_left _ (List.mem_flatMap.2 ⟨p, hp, hi⟩))
  have hnamed : ∀ name, p.type = .named name → r.toGraph.HasNamed name := by
    intro name hname
    refine hr.hasNamed_of_hosted hn ((hsourced.declares p hp).hosted hr.resolvable hall hv name ?_)
    rw [hname]
    rfl
  have henum := hr.typeNode_isEnum_iff hn hall ht hv he
  rw [Graph.kindAgrees_iff (Scope.kindFor_of_propertyKind hk) hnamed fun h => henum.2 (.inl h),
    henum]
  constructor
  · intro h hhides
    exact hhides.unread he (h (.inr hhides))
  · rintro h (hread | hhides)
    · exact hread
    · exact absurd hhides h

end

/-- A component that is a letter or null or null, and a property that refers to it. -/
def letterOrNull : Document :=
  let null : Node := .schema { Schema.empty with type := some (.single .null) }
  let orNull (node : Node) : Node := .schema { Schema.empty with oneOf := [node, null] }
  ⟨"3.0.3", default,
    [("C", orNull (orNull (.schema { Schema.empty with
        type := some (.single .string)
        enum := [.str "a"] }))),
      ("S", .schema { Schema.empty with
        type := some (.single .object)
        properties := [("p", .ref "#/components/schemas/C")] })], by decide⟩

theorem resolve_kindAgrees_iff_letter_or_null :
    ∃ g, letterOrNull.resolve letterOrNull.names = .ok g ∧
    ∃ r, Resolver.LastPass letterOrNull letterOrNull.names r ∧ g = r.toGraph ∧
      ∀ name s o, g.schemas.find? name = some s → s.shape = .object o → ∀ p ∈ o.properties,
        r.scope.Declares p ∧ ∀ owner pointer node,
          (r.scope.resolveProperty owner pointer p.key node).outcome = .ok p →
            (g.KindAgrees p ↔ ¬letterOrNull.HidesEnum owner node) := by
  have hok : (letterOrNull.resolve letterOrNull.names).toOption.isSome = true := by cbv
  obtain ⟨g, hg⟩ := exists_eq_ok_of_isSome hok
  exact ⟨g, hg, Document.resolve_kindAgrees_iff (fun _ hm => hm) hg⟩

/-- The property has the name of the enum as its type and refers to it as to an object. -/
theorem letterOrNull_not_kindAgrees :
    ∃ g s o, letterOrNull.resolve letterOrNull.names = .ok g ∧
      g.schemas.find? "S" = some s ∧ s.shape.object? = some o ∧ ∃ p ∈ o.properties,
        p.type = .named "C" ∧ p.kind = .objectRef "C" ∧ g.IsEnum "C" ∧ ¬g.KindAgrees p := by
  have hrun : ((letterOrNull.resolve letterOrNull.names).toOption.bind fun g =>
      (g.schemas.find? "C").bind fun c => (g.schemas.find? "S").bind fun s =>
        s.shape.object?.bind fun o => (o.property? "p").map fun p =>
          (c.shape.enum?.isSome, p.type, p.kind)) =
        some (true, .named "C", .objectRef "C") := by cbv
  obtain ⟨g, hg, hrun⟩ := toOption_bind_eq_some_iff.1 hrun
  obtain ⟨c, hc, hrun⟩ := Option.bind_eq_some_iff.1 hrun
  obtain ⟨s, hs, hrun⟩ := Option.bind_eq_some_iff.1 hrun
  obtain ⟨o, ho, hrun⟩ := Option.bind_eq_some_iff.1 hrun
  obtain ⟨p, hp, hrun⟩ := Option.map_eq_some_iff.1 hrun
  simp only [Prod.mk.injEq] at hrun
  obtain ⟨hshape, htype, hkind⟩ := hrun
  have henum : g.IsEnum "C" := ⟨c, hc, hshape⟩
  refine ⟨g, s, o, hg, hs, ho, p, List.mem_of_find?_eq_some hp, htype, hkind, henum, ?_⟩
  intro hagrees
  obtain ⟨constraints, hfield⟩ := hagrees.field.2 (.inr ⟨"C", htype, henum⟩)
  rw [hkind] at hfield
  cases hfield

end SchemaModel
