import SchemaModel.Proofs.Computed
import SchemaModel.Proofs.Resolve.Reference
import SchemaModel.Proofs.Resolve.Session
import SchemaModel.Proofs.Resolve.Spelled

/-!
A reference to a component against the schema of the component, written in its place. If the type
of the component is spelled out, both properties have this type, and both admit null or neither
does. What else they say differs for unions with `null` only: a reference reads the alternative
beside `null` alone, while the schema in its place adds its own default and description to what it
finds further inside (`Scope.resolveProperty_inline_iff`).
-/

namespace SchemaModel

namespace Schema

/-- The default and the description of a wrapper are those of what it wraps, if it has any. -/
structure Repeats (inner wrapper : Schema) : Prop where
  default : ∀ v, wrapper.default = some v → inner.default = some v
  description : ∀ text, wrapper.description = some text → inner.description = some text

/-- A property of the given type is the same under the keywords of either schema. -/
structure ReadAlike [Libraries] (owner key : String) (type : TypeRef) (a b : Schema) : Prop where
  kind : ∀ node, (Scope.propertyKind owner key node type a).outcome =
    (Scope.propertyKind owner key node type b).outcome
  default : a.default = b.default
  description : a.description = b.description

end Schema

theorem eq_orElse_iff {α : Type} {w a b : Option α} (h : ∀ v, a = some v → b = some v) :
    (a = w.orElse fun _ => b) ↔ (∀ v, w = some v → a = some v) ∧ a = b := by
  cases w with
  | none => simp
  | some v =>
    simp only [Option.orElse_some, Option.some.injEq, forall_eq']
    constructor
    · intro ha
      exact ⟨ha, by rw [ha, h v ha]⟩
    · exact And.left

namespace Document

variable {d : Document} {context name target : String} {s e : Schema}

theorem namesNullable_of_definition (hp : Reference.component? target = some name)
    (hs : d.definition? name = some s) : d.namesNullable target = s.isNullable := by
  rw [namesNullable, hp, Option.bind_some, find?_of_definition hs]
  rfl

/-- What applies to a schema keeps its default and description. -/
theorem effective_repeats (h : d.effective context (.schema s) = .ok e) : e.Repeats s := by
  have hoverlay : ∀ inner, (effective.overlay s inner).Repeats s := by
    intro inner
    constructor
    · intro v hv
      simp [effective.overlay, hv]
    · intro text ht
      simp [effective.overlay, ht]
  rw [effective_schema] at h
  split at h
  · obtain ⟨inner, -, h⟩ := bind_eq_ok_iff.1 h
    cases h
    exact hoverlay inner
  · split at h
    · obtain ⟨inner, -, h⟩ := bind_eq_ok_iff.1 h
      cases h
      exact hoverlay inner
    · cases h
      exact ⟨fun _ hv => hv, fun _ ht => ht⟩

end Document

section

variable [Libraries]

namespace Scope

variable {scope : Scope} {owner key context base target : String} {path : List String}
  {pointer : Pointer} {type : TypeRef} {s : Schema}

omit [Libraries] in
/-- The keywords of a node are found if its type is, unless it is an enum or an object itself. -/
theorem exists_effective {node : Node}
    (h : (scope.typeNode path context base node pointer).outcome = .ok (type, [])) :
    ∃ e, scope.document.effective context node = .ok e := by
  generalize hinlines : ([] : List Inline) = inlines at h
  replace h := typed_of_typeNode h
  induction h with
  | reference hr =>
    obtain ⟨s, hs, -⟩ := (Document.canonical_of_resolveRef hr).definition
    exact ⟨_, Document.effective_ref hr hs⟩
  | wrapper hw hr =>
    obtain ⟨inner, hs, -⟩ := (Document.canonical_of_resolveRef hr).definition
    rw [Document.effective_schema, hw]
    exact ⟨_, bind_eq_ok_iff.2 ⟨_, Document.effective_ref hr hs, rfl⟩⟩
  | enum | object => cases hinlines
  | nullable hw hc _ ih =>
    obtain ⟨e, he⟩ := ih hinlines
    simp only [Document.effective_schema, hw, Schema.category_nullableOf hc]
    exact ⟨_, bind_eq_ok_iff.2 ⟨e, he, rfl⟩⟩
  | array hw hc | map hw hc | anyArray hw hc | anyMap hw hc | union hw hc | primitive hw hc =>
    refine ⟨_, Document.effective_own hw (Schema.nullableUnion_of_category ?_ ?_)⟩
    · simp [hc]
    · simp [hc]

/-- The node of a property matters for the kind only if the type is a name. -/
theorem propertyKind_of_spelled (h : type.named? = none) (owner key : String) (node other : Node)
    (effective : Schema) : propertyKind owner key node type effective =
      propertyKind owner key other type effective := by
  cases type with
  | named name => cases h
  | array items => rfl
  | map values => rfl
  | primitive type => rfl

theorem propertyKind_overlay (owner key : String) (node : Node) (type : TypeRef)
    (wrapper inner : Schema) :
    propertyKind owner key node type (Document.effective.overlay wrapper inner) =
      propertyKind owner key node type inner := by
  cases type <;> rfl

theorem resolveProperty_schema {kind : PropertyKind} {e : Schema} {inlines : List Inline}
    (hw : s.singleAllOfRef? = none)
    (ht : (scope.typeNode [] owner (Naming.inlineName owner key) (.schema s)
      (pointer.push (.property key))).outcome = .ok (type, inlines))
    (he : scope.document.effective owner (.schema s) = .ok e)
    (hk : (propertyKind owner key (.schema s) type e).outcome = .ok kind) :
    (scope.resolveProperty owner pointer key (.schema s)).outcome =
      .ok ⟨key, type, kind, s.isNullable, e.default, e.description, inlines⟩ := by
  have hnull : scope.document.isNullable owner (.schema s) = .ok s.isNullable := by
    rw [Document.isNullable, hw]
    rfl
  unfold resolveProperty
  simp only [Traced.outcome_bind_eq_ok_iff, Traced.outcome_lift]
  exact ⟨(type, inlines), ht, e, he, kind, hk, _, hnull, rfl⟩

omit [Libraries] in
theorem singleAllOfRef_of_namedType {name : String} (hspelled : type.named? = none)
    (h : (scope.namedType path name s pointer).outcome = .ok type) : s.singleAllOfRef? = none := by
  cases hw : s.singleAllOfRef? with
  | none => rfl
  | some target =>
    rw [namedType_eq, Schema.category_of_singleAllOfRef hw] at h
    cases h
    cases hspelled

/-- Properties that differ in their keywords at most are equal if these are read alike. -/
theorem eq_iff_readAlike {a b : Schema} {node other : Node} {kind kind' : PropertyKind}
    {nullable : Bool} (hspelled : type.named? = none)
    (hk : (propertyKind owner key node type a).outcome = .ok kind)
    (hk' : (propertyKind owner key other type b).outcome = .ok kind') :
    ResolvedProperty.mk key type kind nullable a.default a.description [] =
        ResolvedProperty.mk key type kind' nullable b.default b.description [] ↔
      a.ReadAlike owner key type b := by
  have hkinds : ∀ any, (propertyKind owner key any type a).outcome = .ok kind ∧
      (propertyKind owner key any type b).outcome = .ok kind' := by
    intro any
    rw [propertyKind_of_spelled hspelled owner key any node a,
      propertyKind_of_spelled hspelled owner key any other b]
    exact ⟨hk, hk'⟩
  constructor
  · intro h
    rw [ResolvedProperty.mk.injEq] at h
    obtain ⟨-, -, rfl, -, hdefault, hdescription, -⟩ := h
    exact ⟨fun any => (hkinds any).1.trans (hkinds any).2.symm, hdefault, hdescription⟩
  · rintro ⟨hsame, hdefault, hdescription⟩
    have hok : Except.ok (ε := ModelError) kind = .ok kind' := by
      rw [← (hkinds node).1, hsame, (hkinds node).2]
    rw [Except.ok.inj hok, hdefault, hdescription]

/-- An alternative says what its wrapper lets through if it repeats what the wrapper adds. -/
theorem readAlike_overlay_iff {wrapper inner e : Schema} (h : e.Repeats inner) :
    inner.ReadAlike owner key type (Document.effective.overlay wrapper e) ↔
      inner.Repeats wrapper ∧ inner.ReadAlike owner key type e := by
  have hdefault := eq_orElse_iff (w := wrapper.default) h.default
  have hdescription := eq_orElse_iff (w := wrapper.description) h.description
  constructor
  · rintro ⟨hkind, hd, ht⟩
    obtain ⟨hwd, hd⟩ := hdefault.1 hd
    obtain ⟨hwt, ht⟩ := hdescription.1 ht
    exact ⟨⟨hwd, hwt⟩, fun node => by rw [hkind, propertyKind_overlay], hd, ht⟩
  · rintro ⟨⟨hwd, hwt⟩, hkind, hd, ht⟩
    exact ⟨fun node => by rw [hkind, propertyKind_overlay], hdefault.2 ⟨hwd, hd⟩,
      hdescription.2 ⟨hwt, ht⟩⟩

/-- What a reference reads of a component is what applies to its schema, if this holds of the
alternative beside `null`. -/
theorem readAlike_read_iff {d : Document} {e : Schema} (hw : s.singleAllOfRef? = none)
    (halias : (Node.schema s).aliasTarget? = none)
    (he : d.effective context (.schema s) = .ok e) :
    s.read.ReadAlike owner key type e ↔
      ∀ keyword index inner, s.nullableUnion? = some ⟨keyword, index, .schema inner⟩ →
        inner.Repeats s ∧
          ∀ e, d.effective context (.schema inner) = .ok e → inner.ReadAlike owner key type e := by
  simp only [Document.effective_schema d context s, hw] at he
  cases hu : s.nullableUnion? with
  | none =>
    simp only [hu] at he
    cases he
    simp only [Schema.read, hu, reduceCtorEq, false_implies, implies_true, iff_true]
    exact ⟨fun _ => rfl, rfl, rfl⟩
  | some union =>
    obtain ⟨keyword, index, inner⟩ := union
    cases inner with
    | ref path =>
      simp only [Node.aliasTarget?, hu] at halias
      cases halias
    | schema inner =>
      simp only [hu] at he
      obtain ⟨e', he', he⟩ := bind_eq_ok_iff.1 he
      cases he
      simp only [Schema.read, hu, readAlike_overlay_iff (Document.effective_repeats he')]
      constructor
      · rintro ⟨hrepeats, halike⟩ keyword' index' inner' hsame
        cases hsame
        refine ⟨hrepeats, ?_⟩
        intro other hother
        rw [he', Except.ok.injEq] at hother
        rwa [← hother]
      · intro h
        obtain ⟨hrepeats, halike⟩ := h _ _ _ rfl
        exact ⟨hrepeats, halike e' he'⟩

end Scope

/-- What a component is resolved to has its shape. -/
theorem Resolver.hasShape_of_resolveComponent {scope : Scope} {component : String} {s : Schema}
    {found : Resolved} (hc : scope.document.Canonical component)
    (hs : scope.document.definition? component = some s)
    (h : ((Resolver.start scope).resolveComponent component).2 = .ok found) :
    scope.HasShape (.ofComponent component s) found.shape := by
  have hanswers := ((steady_start scope).fits (scope.document.names.length + 1) component).answers
  obtain ⟨name, t, shape, ht, hs', hshape, rfl⟩ := hanswers found h
  rw [hc.followAlias, Except.ok.injEq] at ht
  subst ht
  rw [hs, Option.some.injEq] at hs'
  subst hs'
  exact hshape

/-- A component whose type is spelled out means the same in place of a reference to it, unless it
is a union with `null` that has a default or description of its own, or is one of several around
a schema. -/
theorem Scope.resolveProperty_inline_iff {d : Document} {order : List String}
    {renames : List (Pointer × String)} {component target : String} {found : Resolved}
    {type : TypeRef} (hrounds : Resolver.Rounds d order renames) (hc : d.Canonical component)
    (hfound : ((Resolver.start ⟨d, renames⟩).resolveComponent component).2 = .ok found)
    (hspelled : found.shape.spelled? = some type)
    (hnames : ∀ name, type.element.named? = some name → name ∈ d.names)
    (htarget : Reference.component? target = some component)
    (owner : String) (pointer : Pointer) (key : String) :
    ∃ s p q, d.definition? component = some s ∧
      (Scope.resolveProperty ⟨d, renames⟩ owner pointer key (.ref target)).outcome = .ok p ∧
      (Scope.resolveProperty ⟨d, renames⟩ owner pointer key (.schema s)).outcome = .ok q ∧
      p.type = type ∧ q.type = type ∧ p.nullable = q.nullable ∧
      (p = q ↔ ∀ keyword index inner, s.nullableUnion? = some ⟨keyword, index, .schema inner⟩ →
        inner.Repeats s ∧
          ∀ e, d.effective owner (.schema inner) = .ok e → inner.ReadAlike owner key type e) := by
  obtain ⟨s, hs, halias⟩ := hc.definition
  have hshape : Scope.HasShape ⟨d, renames⟩ (.ofComponent component s) found.shape :=
    Resolver.hasShape_of_resolveComponent hc hs hfound
  have hunnamed := Shape.named?_of_spelled hspelled
  have htyped := hshape.namedType hspelled
  have hr : d.resolveRef owner target = .ok component := by
    rw [Document.resolveRef, htarget]
    exact hc.followAlias owner
  have hnull : (d.namesNullable target || s.isNullable) = s.isNullable := by
    rw [Document.namesNullable_of_definition htarget hs, Bool.or_self]
  have hw := Scope.singleAllOfRef_of_namedType hunnamed htyped
  obtain ⟨kind, hkind⟩ := Scope.exists_propertyKind owner key (.ref target) type s.read
  have hp : (Scope.resolveProperty ⟨d, renames⟩ owner pointer key (.ref target)).outcome = _ :=
    Scope.resolveProperty_ref hr hs (Scope.componentType_of_namedType hs htyped) hkind
  have hplace : (Scope.typeNode ⟨d, renames⟩ [] owner (Naming.inlineName owner key) (.schema s)
      (pointer.push (.property key))).outcome = .ok (type, []) :=
    Scope.typeNode_of_namedType hrounds.avoidsComponents htyped hunnamed hnames
  obtain ⟨e, he⟩ := Scope.exists_effective hplace
  obtain ⟨kind', hkind'⟩ := Scope.exists_propertyKind owner key (.schema s) type e
  have hq := Scope.resolveProperty_schema hw hplace he hkind'
  rw [hnull] at hp
  refine ⟨s, _, _, hs, hp, hq, rfl, rfl, rfl, ?_⟩
  rw [← Scope.readAlike_read_iff hw halias he]
  exact Scope.eq_iff_readAlike hunnamed hkind hkind'

end

/-- A count or null, with a default. -/
def countOrNull : Document :=
  let count : Node := .schema { Schema.empty with type := some (.single .integer) }
  let null : Node := .schema { Schema.empty with type := some (.single .null) }
  ⟨"3.0.3", default,
    [("C", .schema { Schema.empty with
        description := some "count"
        default := some (.num (.int 5))
        oneOf := [count, null] }),
      ("S", .schema { Schema.empty with
        type := some (.single .object)
        properties := [("p", .ref "#/components/schemas/C")] })], by decide⟩

theorem countOrNull_resolves : countOrNull.Canonical "C" ∧
    Reference.component? "#/components/schemas/C" = some "C" ∧
    ∃ found, ((Resolver.start ⟨countOrNull, []⟩).resolveComponent "C").2 = .ok found ∧
      found.shape.spelled? = some (.primitive .int32) := by
  have hnode : (countOrNull.find? "C").map Node.aliasTarget? = some none := by cbv
  obtain ⟨node, hfind, halias⟩ := Option.map_eq_some_iff.1 hnode
  have hfound : (((Resolver.start ⟨countOrNull, []⟩).resolveComponent "C").2.toOption.bind
      fun found => found.shape.spelled?) = some (.primitive .int32) := by cbv
  exact ⟨⟨node, hfind, halias⟩, by cbv, toOption_bind_eq_some_iff.1 hfound⟩

theorem resolveProperty_inline_iff_count_or_null :
    Resolver.Rounds countOrNull ["C", "S"] [] ∧ countOrNull.Canonical "C" ∧
    Reference.component? "#/components/schemas/C" = some "C" ∧
    (∃ found, ((Resolver.start ⟨countOrNull, []⟩).resolveComponent "C").2 = .ok found ∧
      found.shape.spelled? = some (.primitive .int32)) ∧
    (∀ name, (TypeRef.primitive .int32).element.named? = some name → name ∈ countOrNull.names) ∧
    ∃ s p q, countOrNull.definition? "C" = some s ∧
      (Scope.resolveProperty ⟨countOrNull, []⟩ "S" (.ofComponent "S") "p"
        (.ref "#/components/schemas/C")).outcome = .ok p ∧
      (Scope.resolveProperty ⟨countOrNull, []⟩ "S" (.ofComponent "S") "p" (.schema s)).outcome =
        .ok q ∧
      p.type = .primitive .int32 ∧ q.type = .primitive .int32 ∧ p.nullable = q.nullable ∧
      (p = q ↔ ∀ keyword index inner, s.nullableUnion? = some ⟨keyword, index, .schema inner⟩ →
        inner.Repeats s ∧ ∀ e, countOrNull.effective "S" (.schema inner) = .ok e →
          inner.ReadAlike "S" "p" (.primitive .int32) e) := by
  obtain ⟨hcanonical, hcomponent, found, hfound, hspelled⟩ := countOrNull_resolves
  have hnames : ∀ name, (TypeRef.primitive .int32).element.named? = some name →
      name ∈ countOrNull.names := by
    intro name h
    cases h
  have hrounds : Resolver.Rounds countOrNull ["C", "S"] [] := .start
  exact ⟨hrounds, hcanonical, hcomponent, ⟨found, hfound, hspelled⟩, hnames,
    Scope.resolveProperty_inline_iff hrounds hcanonical hfound hspelled hnames hcomponent
      "S" (.ofComponent "S") "p"⟩

/-- The default of the component is not that of a reference to it. -/
theorem countOrNull_loses_default : countOrNull.Canonical "C" ∧
    (∃ found, ((Resolver.start ⟨countOrNull, []⟩).resolveComponent "C").2 = .ok found ∧
      found.shape.spelled? = some (.primitive .int32)) ∧
    ∃ s p q, countOrNull.definition? "C" = some s ∧
      (Scope.resolveProperty ⟨countOrNull, []⟩ "S" (.ofComponent "S") "p"
        (.ref "#/components/schemas/C")).outcome = .ok p ∧
      (Scope.resolveProperty ⟨countOrNull, []⟩ "S" (.ofComponent "S") "p" (.schema s)).outcome =
        .ok q ∧
      (p.default, p.description) = (none, none) ∧
        (q.default, q.description) = (some (.num (.int 5)), some "count") := by
  have hp : (Scope.resolveProperty ⟨countOrNull, []⟩ "S" (.ofComponent "S") "p"
      (.ref "#/components/schemas/C")).outcome.toOption.map
        (fun p => (p.default, p.description)) = some (none, none) := by cbv
  have hq : ((countOrNull.definition? "C").bind fun s =>
      (Scope.resolveProperty ⟨countOrNull, []⟩ "S" (.ofComponent "S") "p"
        (.schema s)).outcome.toOption.map fun q => (q.default, q.description)) =
          some (some (.num (.int 5)), some "count") := by cbv
  obtain ⟨p, hp, hnone⟩ := toOption_map_eq_some_iff.1 hp
  obtain ⟨s, hs, hq⟩ := Option.bind_eq_some_iff.1 hq
  obtain ⟨q, hq, hsome⟩ := toOption_map_eq_some_iff.1 hq
  obtain ⟨hcanonical, -, hfound⟩ := countOrNull_resolves
  exact ⟨hcanonical, hfound, s, p, q, hs, hp, hq, hnone, hsome⟩

end SchemaModel
