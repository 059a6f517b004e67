import SchemaModel.Proofs.Computed
import SchemaModel.Proofs.Resolve.Declarations
import SchemaModel.Proofs.Resolve.Typing

/-!
What a key stands for that is declared more than once. Declarations of one key are merged if their
types are equal, and the type of an inline schema is a name made of the owner and the key. So an
inline schema that is declared again is called like the one declared later, which alone is kept and
resolved. The declarations agree exactly if the schemas that are not resolved have the shapes that
the graph has under their names (`Document.resolve_redeclares_iff`).
-/

namespace SchemaModel

open Relation

/-- Shapes of one category: objects with the same properties of the same types, enums with the same
members, or others that are equal. -/
inductive Shape.Matches : Shape → Shape → Prop where
  | same (shape : Shape) : Matches shape shape
  | enum {a b : EnumDescriptor}
      (members : ∀ value, (a.member? value).isSome = (b.member? value).isSome) :
      Matches (.enum a) (.enum b)
  | object {a b : ObjectShape}
      (types : ∀ key, (a.property? key).map ResolvedProperty.type =
        (b.property? key).map ResolvedProperty.type) : Matches (.object a) (.object b)

namespace Shape.Matches

variable {a b c : Shape}

theorem symm (h : a.Matches b) : b.Matches a := by
  cases h with
  | same => exact .same _
  | enum members => exact .enum fun value => (members value).symm
  | object types => exact .object fun key => (types key).symm

theorem trans (h : a.Matches b) (h' : b.Matches c) : a.Matches c := by
  cases h with
  | same => exact h'
  | enum members =>
    cases h' with
    | same => exact .enum members
    | enum members' => exact .enum fun value => (members value).trans (members' value)
  | object types =>
    cases h' with
    | same => exact .object types
    | object types' => exact .object fun key => (types key).trans (types' key)

/-- Matching objects have the same keys. -/
theorem mem_keys {a b : ObjectShape} (h : (Shape.object a).Matches (.object b)) {key : String} :
    key ∈ a.keys ↔ key ∈ b.keys := by
  cases h with
  | same => rfl
  | object types =>
    rw [ObjectShape.keys, ObjectShape.keys, mem_map_key_iff, mem_map_key_iff]
    have hsome := congrArg Option.isSome (types key)
    rw [Option.isSome_map, Option.isSome_map, Bool.eq_iff_iff] at hsome
    exact hsome

end Shape.Matches

section

variable [Libraries]

namespace Scope

variable {scope : Scope} {order : List String} {g : Graph} {site core : Site} {i : Inline}
  {p q : ResolvedProperty}

/-- What a declaration stands for: its inline schema as that is resolved by itself, or the schema
of the graph that its type names. -/
inductive Denotes (scope : Scope) (g : Graph) (p : ResolvedProperty) : Shape → Prop where
  | inline {i : Inline} {shape : Shape} (only : p.inlines = [i])
      (shaped : scope.HasShape (.ofInline i) shape) : Denotes scope g p shape
  | listed {name : String} {t : Resolved} (none : p.inlines = [])
      (names : p.type.element.named? = some name) (found : g.schemas.find? name = some t) :
      Denotes scope g p t.shape

/-- The declarations have one type, and stand for matching shapes if it names one. -/
def Agree (scope : Scope) (g : Graph) (p q : ResolvedProperty) : Prop :=
  p.type = q.type ∧ ∀ name, p.type.element.named? = some name →
    ∃ a b, scope.Denotes g p a ∧ scope.Denotes g q b ∧ a.Matches b

/-- All declarations of a key agree. -/
def Agrees (scope : Scope) (g : Graph) (core : Site) : Prop :=
  ∀ p q, scope.DeclaredIn core p → scope.DeclaredIn core q → p.key = q.key → scope.Agree g p q

/-- The graph has a schema under the name of an inline schema, of the shape that this one has. -/
def Shown (scope : Scope) (g : Graph) (i : Inline) : Prop :=
  ∃ t shape, g.schemas.find? i.name = some t ∧ scope.HasShape (.ofInline i) shape ∧
    shape.Matches t.shape

theorem DeclaredIn.typed (hp : scope.DeclaredIn core p) :
    ∃ owner base node pointer,
      (scope.typeNode [] owner base node pointer).outcome = .ok (p.type, p.inlines) := by
  obtain ⟨part, -, node, -, hr⟩ := hp
  obtain ⟨effective, -, ht, -⟩ := resolveProperty_eq_ok hr
  exact ⟨_, _, _, _, ht⟩

theorem DeclaredIn.inlines (hp : scope.DeclaredIn core p) :
    p.inlines = [] ∨ ∃ i, p.inlines = [i] ∧ p.type.element.named? = some i.name := by
  obtain ⟨owner, base, node, pointer, ht⟩ := hp.typed
  exact typeNode_inlines ht

theorem DeclaredIn.eq_of_mem (hp : scope.DeclaredIn core p) (hi : i ∈ p.inlines) :
    p.inlines = [i] ∧ p.type.element.named? = some i.name := by
  rcases hp.inlines with hnone | ⟨only, honly, hname⟩
  · rw [hnone] at hi
    cases hi
  · rw [honly, List.mem_singleton] at hi
    subst hi
    exact ⟨honly, hname⟩

/-- The declaration of a key that is kept: an object of the outlines has it, and its inline schema
is visited. -/
theorem Visits.kept (hv : scope.Visits order site)
    (houtline : ∀ site, scope.Visits order site →
      ∃ found, (scope.outlineAt site).outcome = .ok found)
    (h : scope.document.ObjectOf site core) (hp : scope.DeclaredIn core p) :
    ∃ q, scope.DeclaredIn core q ∧ q.key = p.key ∧
      ∀ i ∈ q.inlines, scope.Visits order (.ofInline i) := by
  obtain ⟨v, hv, ho⟩ := hv.wraps h.1
  obtain ⟨found, hfound⟩ := houtline v hv
  have hout := ho.symm.trans hfound
  rw [outlineAt, outline_eq, h.2, Traced.outcome_bind_eq_ok_iff] at hout
  obtain ⟨o, hobject, hout⟩ := hout
  cases hout
  obtain ⟨merged, members, hmerged, rfl⟩ := objectShape_eq_ok hobject
  have hcollects := (merging_collects scope).1 _ _ _ _ _ hmerged core.inline
  obtain ⟨q, hq, -⟩ := hcollects.keeps p hp
  have hmem := List.mem_of_find?_eq_some hq
  refine ⟨q, hcollects.declares q hmem, by simpa using List.find?_some hq, ?_⟩
  intro i hi
  exact .inside hv hfound (List.mem_append_left _ (List.mem_flatMap.2 ⟨q, hmem, hi⟩))

section LastPass

variable {r : Resolver} (hr : Resolver.Complete scope order r) (hn : r.inlineRenames = [])

include hr hn

/-- A visited inline schema is what the graph has under its name. -/
theorem Visits.listed (hv : scope.Visits order (.ofInline i)) :
    ∃ t, r.toGraph.schemas.find? i.name = some t ∧ scope.HasShape (.ofInline i) t.shape := by
  obtain ⟨shape, hshape⟩ := hr.resolvable.shapes _ hv
  exact ⟨_, (hr.find?_toGraph hn).2 ⟨_, shape, hv, hshape, rfl, rfl⟩, hshape⟩

theorem Visits.shown (hv : scope.Visits order (.ofInline i)) : scope.Shown r.toGraph i := by
  obtain ⟨t, ht, hshape⟩ := hv.listed hr hn
  exact ⟨t, _, ht, hshape, .same _⟩

/-- Declarations whose inline schemas are shown stand for what the graph has under the name. -/
theorem DeclaredIn.denotes (hall : ∀ name ∈ scope.document.names, name ∈ order)
    (hp : scope.DeclaredIn core p) (hshown : ∀ i ∈ p.inlines, scope.Shown r.toGraph i)
    {name : String} (hname : p.type.element.named? = some name) :
    ∃ t a, r.toGraph.schemas.find? name = some t ∧ scope.Denotes r.toGraph p a ∧
      a.Matches t.shape := by
  rcases hp.inlines with hnone | ⟨i, honly, hi⟩
  · obtain ⟨owner, base, node, pointer, ht⟩ := hp.typed
    have hvisits : ∀ i ∈ p.inlines, scope.Visits order (.ofInline i) := by simp [hnone]
    obtain ⟨site, shape, hv, hshape, hsite, -⟩ :=
      (typing_hosted hr.resolvable hall).1 _ _ _ _ _ _ ht hvisits name hname
    have hfound := (hr.find?_toGraph hn).2 ⟨site, shape, hv, hshape, hsite, rfl⟩
    exact ⟨_, _, hfound, .listed hnone hname hfound, .same _⟩
  · rw [hname, Option.some.injEq] at hi
    obtain ⟨t, a, ht, ha, hm⟩ := hshown i (by simp [honly])
    exact ⟨t, a, hi ▸ ht, .inline honly ha, hm⟩

/-- A declaration whose inline schema is visited stands for what the graph has under the name, and
for nothing else. -/
theorem DeclaredIn.eq_of_denotes (hq : scope.DeclaredIn core q)
    (hv : ∀ i ∈ q.inlines, scope.Visits order (.ofInline i)) {b : Shape}
    (hb : scope.Denotes r.toGraph q b) : ∃ name t, q.type.element.named? = some name ∧
      r.toGraph.schemas.find? name = some t ∧ b = t.shape := by
  cases hb with
  | @inline i _ only shaped =>
    have hi : i ∈ q.inlines := by simp [only]
    obtain ⟨t, ht, hshape⟩ := (hv i hi).listed hr hn
    exact ⟨_, t, (hq.eq_of_mem hi).2, ht, shaped.unique hshape⟩
  | listed none names found => exact ⟨_, _, names, found, rfl⟩

/-- The declarations of a visited object agree exactly if those inline schemas among them that are
not resolved are shown. -/
theorem Visits.agrees_iff (hall : ∀ name ∈ scope.document.names, name ∈ order)
    (hv : scope.Visits order site) (hcore : scope.document.ObjectOf site core) :
    scope.Agrees r.toGraph core ↔
      ∀ p, scope.DeclaredIn core p → ∀ i ∈ p.inlines, ¬scope.Visits order (.ofInline i) →
        scope.Shown r.toGraph i := by
  have houtline := fun site hv => @Resolver.Resolvable.outline scope order _ hr.resolvable site hv
  constructor
  · intro hagrees p hp i hi _
    obtain ⟨honly, hname⟩ := hp.eq_of_mem hi
    obtain ⟨q, hq, hk, hkept⟩ := hv.kept houtline hcore hp
    obtain ⟨htype, hsame⟩ := hagrees p q hp hq hk.symm
    obtain ⟨a, b, ha, hb, hm⟩ := hsame _ hname
    obtain ⟨name, t, hq', ht, rfl⟩ := hq.eq_of_denotes hr hn hkept hb
    rw [← htype, hname, Option.some.injEq] at hq'
    subst hq'
    cases ha with
    | inline only shaped =>
      rw [honly, List.singleton_inj] at only
      subst only
      exact ⟨t, a, ht, shaped, hm⟩
    | listed none =>
      rw [honly] at none
      cases none
  · intro hhidden p q hp hq hk
    have hshown : ∀ p, scope.DeclaredIn core p → ∀ i ∈ p.inlines, scope.Shown r.toGraph i := by
      intro p hp i hi
      by_cases hvisits : scope.Visits order (.ofInline i)
      · exact hvisits.shown hr hn
      · exact hhidden p hp i hi hvisits
    have htype := hv.coherent houtline hcore p q hp hq hk
    refine ⟨htype, fun name hname => ?_⟩
    obtain ⟨t, a, ht, ha, hat⟩ := hp.denotes hr hn hall (hshown p hp) hname
    obtain ⟨t', b, ht', hb, hbt⟩ := hq.denotes hr hn hall (hshown q hq) (htype ▸ hname)
    rw [ht, Option.some.injEq] at ht'
    subst ht'
    exact ⟨a, b, ha, hb, hat.trans hbt.symm⟩

end LastPass

/-- What is merged to begin with is no part of itself. -/
theorem Visits.leadsTo (hv : scope.Visits order site)
    (h : ReflTransGen scope.document.Wraps site core) :
    scope.LeadsTo [(core.pointer, core.name)] core := by
  have hcomponent : core.pointer.steps = [] → ∃ t,
      scope.document.definition? core.pointer.component = some t ∧
        core = .ofComponent core.pointer.component t := by
    rcases h.cases_tail with rfl | ⟨middle, -, hstep⟩
    · intro hsteps
      have hi : core.inline = false := by
        by_contra hi
        exact hv.grounded.inside (by simpa using hi) hsteps
      have hpointer := hv.grounded.component hi
      obtain ⟨t, ht, -⟩ := (hv.grounded.canonical hi).definition
      have hcomponent := grounded_ofComponent (hv.grounded.canonical hi) ht
      have hcore := hv.grounded.site_eq hcomponent hpointer
      rw [hpointer]
      exact ⟨t, ht, hcore⟩
    · cases hstep with
      | inline category => exact fun h => absurd h (steps_push_ne_nil _ _)
      | component category leads definition => exact fun _ => ⟨_, definition, rfl⟩
  have hstart : scope.LeadsTo [] core := by
    intro c hc
    cases hc
  exact hstart.append .refl hcomponent

/-- An object whose parts declare a key with different types is not outlined, and this is why. -/
theorem Visits.clashes (hv : scope.Visits order site) (hcore : scope.document.ObjectOf site core)
    (hflat : scope.Flat core) (hc : ¬scope.Coherent core) :
    ∃ e, (scope.outlineAt core).outcome = .error e ∧ Clashes (scope.DeclaredIn core) e := by
  obtain ⟨declarations, hdeclarations, hamounts⟩ := (merging_amounts scope).1
    [(core.pointer, core.name)] core.name core.pointer core.schema core.inline
    (hv.leadsTo hcore.1) hflat
  cases hm : (scope.mergeSchema [(core.pointer, core.name)] core.name core.pointer
      core.schema).outcome with
  | ok o =>
    have hcollects := (merging_collects scope).1 _ _ _ _ _ hm core.inline
    exact absurd (fun p q hp hq hk => hcollects.type_eq hp hq hk) hc
  | error e =>
    refine ⟨e, ?_, (hamounts.clashes e hm).mono fun p hp =>
      hdeclarations.declaredIn p (hp.resolve_left List.not_mem_nil)⟩
    rw [outlineAt, outline_eq, hcore.2]
    simp [objectShape, Traced.outcome_bind_eq_error_iff, hm]

end Scope

/-- In every graph that is found the declarations of a key of an object have one type. They stand
for the same exactly if each inline schema among them that is not resolved has the shape which the
graph has under its name. Declarations of different types are always reported. -/
theorem Document.resolve_redeclares_iff {d : Document} {order : List String}
    (hall : ∀ name ∈ d.names, name ∈ order) :
    (∀ g, d.resolve order = .ok g → ∃ renames r, Resolver.Rounds d order renames ∧
      Resolver.pass ⟨d, renames⟩ order = .ok r ∧ r.inlineRenames = [] ∧ g = r.toGraph ∧
      ∀ site core, Scope.Visits ⟨d, renames⟩ order site → d.ObjectOf site core →
        Scope.Coherent ⟨d, renames⟩ core ∧
        (Scope.Agrees ⟨d, renames⟩ g core ↔
          ∀ p, Scope.DeclaredIn ⟨d, renames⟩ core p → ∀ i ∈ p.inlines,
            ¬Scope.Visits ⟨d, renames⟩ order (.ofInline i) → Scope.Shown ⟨d, renames⟩ g i)) ∧
    ∀ renames site core, Scope.Visits ⟨d, renames⟩ order site → d.ObjectOf site core →
      Scope.Flat ⟨d, renames⟩ core → ¬Scope.Coherent ⟨d, renames⟩ core →
        ∃ e, (Scope.outlineAt ⟨d, renames⟩ core).outcome = .error e ∧
          Clashes (Scope.DeclaredIn ⟨d, renames⟩ core) e := by
  refine ⟨?_, fun renames site core hv hcore hflat hc => hv.clashes hcore hflat hc⟩
  intro g h
  obtain ⟨r, ⟨renames, hrounds, hp, hn⟩, rfl⟩ := lastPass_of_resolve h
  have hr := Resolver.pass_complete hp
  refine ⟨renames, r, hrounds, hp, hn, rfl, fun site core hv hcore => ⟨?_, ?_⟩⟩
  · exact hv.coherent (fun site hv => hr.resolvable.outline hv) hcore
  · exact hv.agrees_iff hr hn hall hcore

end

/-- A schema that declares an inline object with the given key. -/
def declaresObject (key : String) : Schema :=
  { textsObject [] with properties := [("c", .schema (textsObject [key]))] }

/-- An object whose inline branch declares an inline object, which the object declares again. -/
def redeclaresObject (before after : String) : Schema :=
  { declaresObject after with allOf := [.schema (declaresObject before)] }

def redeclaredObject (before after : String) : Document :=
  ⟨"3.0.3", default, [("S", .schema (redeclaresObject before after))], by simp⟩

/-- An object that declares a text again what its inline branch declares as an object. -/
def conflictingObject : Schema :=
  { textsObject ["c"] with allOf := [.schema (declaresObject "x")] }

def conflictingKey : Document := ⟨"3.0.3", default, [("S", .schema conflictingObject)], by decide⟩

theorem conflictingKey_flat :
    Scope.Flat ⟨conflictingKey, []⟩ (.ofComponent "S" conflictingObject) := by
  refine .intro (textsObject_found rfl fun target hm => ?_) fun child hc => ?_
  · cases List.mem_singleton.1 hm
  rcases Document.among_cons.1 hc with hc | hc
  · rw [Document.opens_schema] at hc
    subst hc
    refine .intro ⟨fun target hm => ?_, fun e he => ?_, fun a ha => ?_⟩ fun child hc => ?_
    · cases hm
    · cases List.mem_singleton.1 he
      exact exists_eq_ok_of_isSome (by cbv)
    · cases ha
    · exact absurd hc Document.not_among_nil
  · exact absurd hc Document.not_among_nil

theorem conflictingKey_not_coherent :
    ¬Scope.Coherent ⟨conflictingKey, []⟩ (.ofComponent "S" conflictingObject) := by
  intro hcoherent
  have hbefore : ((Scope.resolveProperty ⟨conflictingKey, []⟩ "S"
      ((Pointer.ofComponent "S").push (.allOf 0)) "c"
      (.schema (textsObject ["x"]))).outcome.toOption.map fun p => (p.key, p.type)) =
        some ("c", .named "SC") := by cbv
  have hafter : ((Scope.resolveProperty ⟨conflictingKey, []⟩ "S" (.ofComponent "S") "c"
      (.schema { Schema.empty with type := some (.single .string) })).outcome.toOption.map
        fun p => (p.key, p.type)) = some ("c", .primitive .string) := by cbv
  obtain ⟨p, hp, hpt⟩ := toOption_map_eq_some_iff.1 hbefore
  obtain ⟨q, hq, hqt⟩ := toOption_map_eq_some_iff.1 hafter
  obtain ⟨hpk, hpt⟩ := Prod.mk.inj hpt
  obtain ⟨hqk, hqt⟩ := Prod.mk.inj hqt
  have hbranch : conflictingKey.Branch (.ofComponent "S" conflictingObject)
      ((Site.ofComponent "S" conflictingObject).branch 0 (declaresObject "x")) :=
    Document.among_cons.2 (.inl (.inline _))
  have hpd : Scope.DeclaredIn ⟨conflictingKey, []⟩ (.ofComponent "S" conflictingObject) p :=
    (Scope.declaredIn_of_property List.mem_cons_self hp).of_branch hbranch
  have hqd : Scope.DeclaredIn ⟨conflictingKey, []⟩ (.ofComponent "S" conflictingObject) q :=
    Scope.declaredIn_of_property List.mem_cons_self hq
  have htype := hcoherent p q hpd hqd (hpk.trans hqk.symm)
  rw [hpt, hqt] at htype
  cases htype

theorem resolve_redeclares_iff_redeclared_object :
    (let d := redeclaredObject "x" "x"
    (∀ name ∈ d.names, name ∈ ["S"]) ∧ ∃ g, d.resolve ["S"] = .ok g ∧
      ∃ renames r, Resolver.Rounds d ["S"] renames ∧
        Resolver.pass ⟨d, renames⟩ ["S"] = .ok r ∧ r.inlineRenames = [] ∧ g = r.toGraph ∧
        ∀ site core, Scope.Visits ⟨d, renames⟩ ["S"] site → d.ObjectOf site core →
          Scope.Coherent ⟨d, renames⟩ core ∧
          (Scope.Agrees ⟨d, renames⟩ g core ↔
            ∀ p, Scope.DeclaredIn ⟨d, renames⟩ core p → ∀ i ∈ p.inlines,
              ¬Scope.Visits ⟨d, renames⟩ ["S"] (.ofInline i) →
                Scope.Shown ⟨d, renames⟩ g i)) ∧
    let object := Site.ofComponent "S" conflictingObject
    (∀ name ∈ conflictingKey.names, name ∈ ["S"]) ∧
      Scope.Visits ⟨conflictingKey, []⟩ ["S"] object ∧ conflictingKey.ObjectOf object object ∧
      Scope.Flat ⟨conflictingKey, []⟩ object ∧ ¬Scope.Coherent ⟨conflictingKey, []⟩ object ∧
      ∃ e, (Scope.outlineAt ⟨conflictingKey, []⟩ object).outcome = .error e ∧
        Clashes (Scope.DeclaredIn ⟨conflictingKey, []⟩ object) e := by
  refine ⟨?_, ?_⟩
  · intro d
    have hall : ∀ name ∈ d.names, name ∈ ["S"] := by decide
    have hok : (d.resolve ["S"]).toOption.isSome = true := by cbv
    obtain ⟨g, hg⟩ := exists_eq_ok_of_isSome hok
    exact ⟨hall, g, hg, (Document.resolve_redeclares_iff hall).1 g hg⟩
  · intro object
    have hall : ∀ name ∈ conflictingKey.names, name ∈ ["S"] := by decide
    have hfollow : conflictingKey.followAlias "S" "S" = .ok "S" := by cbv
    have hvisits : Scope.Visits ⟨conflictingKey, []⟩ ["S"] object :=
      .component List.mem_cons_self hfollow rfl
    have hobject : conflictingKey.ObjectOf object object := ⟨.refl, rfl⟩
    exact ⟨hall, hvisits, hobject, conflictingKey_flat, conflictingKey_not_coherent,
      (Document.resolve_redeclares_iff hall).2 [] object object hvisits hobject
        conflictingKey_flat conflictingKey_not_coherent⟩

theorem textsObject_shape [Libraries] {scope : Scope} {site : Site} {shape : Shape} {key : String}
    (hs : site.schema = textsObject [key]) (h : scope.HasShape site shape) :
    ∃ o, shape = .object o ∧ o.keys = [key] := by
  have hc : site.schema.category = .object := by
    rw [hs]
    rfl
  obtain ⟨n, h⟩ := h
  cases h with
  | own outline =>
    rw [Scope.outlineAt, Scope.outline_eq, hc, Traced.outcome_bind_eq_ok_iff] at outline
    obtain ⟨o, ho, he⟩ := outline
    cases he
    obtain ⟨merged, members, hmerged, rfl⟩ := Scope.objectShape_eq_ok ho
    refine ⟨_, rfl, ?_⟩
    rw [Scope.mergeSchema, hs, Traced.outcome_bind_eq_ok_iff] at hmerged
    obtain ⟨o, ho, hmerged⟩ := hmerged
    rw [textsObject, Schema.empty, Scope.mergeBranches] at ho
    cases ho
    obtain ⟨o₁, additional, ho₁, -, rfl⟩ := Scope.mergeOwn_eq_ok hmerged
    change (Scope.declareOwn scope _ _ .empty [(key, _)]).outcome = .ok o₁ at ho₁
    simp only [Scope.declareOwn, Traced.outcome_bind_eq_ok_iff, Traced.outcome_lift] at ho₁
    obtain ⟨p, hp, o₂, ho₂, ho₁⟩ := ho₁
    obtain ⟨-, rfl, -⟩ := Scope.resolveProperty_eq_ok hp
    cases ho₂
    cases ho₁
    rfl
  | same outline =>
    have hnamed := (Scope.outline_sameAs outline).2.2
    rw [hc] at hnamed
    cases hnamed

/-- The declaration of an inline object stands for this object. -/
theorem textsObject_denotes [Libraries] {scope : Scope} {g : Graph} {owner name key : String}
    {pointer : Pointer} {p : ResolvedProperty}
    (hp : (scope.resolveProperty owner pointer name (.schema (textsObject [key]))).outcome =
      .ok p) :
    (∃ inner, p.type = .named inner) ∧
      ∀ shape, scope.Denotes g p shape → ∃ o, shape = .object o ∧ o.keys = [key] := by
  obtain ⟨-, -, ht, -⟩ := Scope.resolveProperty_eq_ok hp
  rw [Scope.typeNode_schema] at ht
  change Except.ok (TypeRef.named _, [Inline.mk _ _ _]) = _ at ht
  rw [Except.ok.injEq, Prod.mk.injEq] at ht
  obtain ⟨htype, hinlines⟩ := ht
  refine ⟨⟨_, htype.symm⟩, fun shape h => ?_⟩
  cases h with
  | inline only shaped =>
    rw [← hinlines, List.singleton_inj] at only
    subst only
    exact textsObject_shape rfl shaped
  | listed none =>
    rw [← hinlines] at none
    cases none

/-- Objects with other keys are merged without an error, and only the second is resolved. -/
theorem redeclaredObject_not_agrees :
    let d := redeclaredObject "x" "y"
    let object := Site.ofComponent "S" (redeclaresObject "x" "y")
    ∃ g r, d.resolve ["S"] = .ok g ∧ Resolver.pass ⟨d, []⟩ ["S"] = .ok r ∧
      r.inlineRenames = [] ∧ g = r.toGraph ∧ Scope.Visits ⟨d, []⟩ ["S"] object ∧
      d.ObjectOf object object ∧ ¬Scope.Agrees ⟨d, []⟩ g object := by
  intro d object
  have hpass : ((Resolver.pass ⟨d, []⟩ ["S"]).toOption.map Resolver.inlineRenames) = some [] := by
    cbv
  obtain ⟨r, hr, hn⟩ := toOption_map_eq_some_iff.1 hpass
  have hresolve : d.resolve ["S"] = .ok r.toGraph := by
    rw [Document.resolve, Resolver.passes, hr]
    simp only [hn]
  have hfollow : d.followAlias "S" "S" = .ok "S" := by cbv
  refine ⟨r.toGraph, r, hresolve, hr, hn, rfl, ?_, ⟨.refl, rfl⟩, ?_⟩
  · exact .component List.mem_cons_self hfollow rfl
  intro hagrees
  -- the declaration in the branch, and that of the object itself
  have hbefore : (Scope.resolveProperty ⟨d, []⟩ "S" ((Pointer.ofComponent "S").push (.allOf 0)) "c"
      (.schema (textsObject ["x"]))).outcome.toOption.isSome = true := by cbv
  have hafter : (Scope.resolveProperty ⟨d, []⟩ "S" (.ofComponent "S") "c"
      (.schema (textsObject ["y"]))).outcome.toOption.isSome = true := by cbv
  obtain ⟨p, hp⟩ := exists_eq_ok_of_isSome hbefore
  obtain ⟨q, hq⟩ := exists_eq_ok_of_isSome hafter
  obtain ⟨-, hpk, -⟩ := Scope.resolveProperty_eq_ok hp
  obtain ⟨-, hqk, -⟩ := Scope.resolveProperty_eq_ok hq
  obtain ⟨⟨inner, htype⟩, hpshape⟩ := @textsObject_denotes _ _ r.toGraph _ _ _ _ _ hp
  obtain ⟨-, hqshape⟩ := @textsObject_denotes _ _ r.toGraph _ _ _ _ _ hq
  have hbranch : d.Branch object (object.branch 0 (declaresObject "x")) :=
    Document.among_cons.2 (.inl (.inline _))
  have hpd : Scope.DeclaredIn ⟨d, []⟩ object p :=
    (Scope.declaredIn_of_property List.mem_cons_self hp).of_branch hbranch
  have hqd : Scope.DeclaredIn ⟨d, []⟩ object q :=
    Scope.declaredIn_of_property List.mem_cons_self hq
  obtain ⟨-, hsame⟩ := hagrees p q hpd hqd (hpk.trans hqk.symm)
  obtain ⟨a, b, ha, hb, hm⟩ := hsame inner (by rw [htype]; rfl)
  obtain ⟨o, rfl, ho⟩ := hpshape a ha
  obtain ⟨o', rfl, ho'⟩ := hqshape b hb
  have hx : "x" ∈ o'.keys := hm.mem_keys.1 (ho ▸ List.mem_cons_self)
  rw [ho'] at hx
  simp at hx

end SchemaModel
