import Mathlib.Logic.Relation
import SchemaModel.Proofs.Computed
import SchemaModel.Proofs.Resolve.Reference

/-!
Chains of aliases. Following a name finds the component at the end of its chain, if the chain has
one (`Document.followAlias_eq_ok_iff`), so all names on a chain lead to one component. A property
that refers to it through a bare reference is the one that refers to a later name of the chain,
but for null: of the names on the chain, only the first is asked whether it admits null
(`Scope.resolveProperty_alias_iff`).
-/

namespace SchemaModel

open Relation

namespace Document

variable {d : Document} {context name next target : String}

/-- One step of a chain: from an alias to the component that it refers to. -/
def AliasOf (d : Document) (name next : String) : Prop :=
  ∃ node path, d.find? name = some node ∧ node.aliasTarget? = some path ∧
    Reference.component? path = some next

/-- A component that is a bare reference to another one. -/
def RefersTo (d : Document) (name next : String) : Prop :=
  ∃ path, d.find? name = some (.ref path) ∧ Reference.component? path = some next

theorem RefersTo.aliasOf (h : d.RefersTo name next) : d.AliasOf name next := by
  obtain ⟨path, hf, hc⟩ := h
  exact ⟨.ref path, path, hf, rfl, hc⟩

theorem aliasOf_rightUnique (d : Document) : Relator.RightUnique d.AliasOf := by
  rintro name a b ⟨node, path, hf, ht, hc⟩ ⟨node', path', hf', ht', hc'⟩
  rw [hf, Option.some.injEq] at hf'
  subst hf'
  rw [ht, Option.some.injEq] at ht'
  subst ht'
  rw [hc, Option.some.injEq] at hc'
  exact hc'

theorem Canonical.not_aliasOf (h : d.Canonical name) : ¬d.AliasOf name next := by
  rintro ⟨node, path, hf, ht, -⟩
  obtain ⟨node', hf', hnone⟩ := h
  rw [hf, Option.some.injEq] at hf'
  subst hf'
  rw [ht] at hnone
  cases hnone

/-- A chain that ends never comes back to a name on it. -/
theorem not_returns (h : ReflTransGen d.AliasOf name target) (hc : d.Canonical target) :
    ¬TransGen d.AliasOf name name := by
  induction h using ReflTransGen.head_induction_on with
  | refl =>
    intro hcycle
    obtain ⟨next, hstep, -⟩ := TransGen.head'_iff.1 hcycle
    exact hc.not_aliasOf hstep
  | @head name next hstep _ ih =>
    intro hcycle
    obtain ⟨other, hother, hback⟩ := TransGen.head'_iff.1 hcycle
    obtain rfl := aliasOf_rightUnique d hstep hother
    exact ih (TransGen.tail' hback hstep)

theorem reaches_of_followFrom {chain : List String}
    (h : d.followFrom context chain name = .ok target) : ReflTransGen d.AliasOf name target := by
  fun_induction followFrom d context chain name with
  | case1 chain current hf => cases h
  | case2 chain current node hf ha =>
    cases h
    exact .refl
  | case3 => cases h
  | case4 => cases h
  | case5 chain current node hf path ha next hn hc ih => exact .head ⟨node, path, hf, ha, hn⟩ (ih h)

/-- The chain is gone along to its end, if it leads to none of the names met before. -/
theorem followFrom_of_reaches (h : ReflTransGen d.AliasOf name target) (hc : d.Canonical target) :
    ∀ chain : List String, (∀ met ∈ chain, ¬TransGen d.AliasOf name met) →
      d.followFrom context chain name = .ok target := by
  induction h using ReflTransGen.head_induction_on with
  | refl =>
    intro chain _
    obtain ⟨node, hf, ha⟩ := hc
    rw [followFrom_eq, hf]
    simp only [ha]
  | @head name next hstep hrest ih =>
    intro chain hnew
    have hnext : next ∉ chain := fun hm => hnew next hm (.single hstep)
    have hlater : ∀ met ∈ chain ++ [next], ¬TransGen d.AliasOf next met := by
      intro met hm hcycle
      rcases List.mem_append.1 hm with hm | hm
      · exact hnew met hm (.head hstep hcycle)
      · rw [List.mem_singleton.1 hm] at hcycle
        exact not_returns hrest hc hcycle
    obtain ⟨node, path, hf, ha, hn⟩ := hstep
    rw [followFrom_eq, hf]
    simp only [ha, hn, if_neg hnext]
    exact ih _ hlater

/-- A name leads to the component at the end of its chain. -/
theorem followAlias_eq_ok_iff : d.followAlias context name = .ok target ↔
    ReflTransGen d.AliasOf name target ∧ d.Canonical target := by
  constructor
  · intro h
    exact ⟨reaches_of_followFrom h, canonical_of_followAlias h⟩
  · rintro ⟨hr, hc⟩
    apply followFrom_of_reaches hr hc
    intro met hm
    rw [List.mem_singleton.1 hm]
    exact not_returns hr hc

/-- All names on a chain lead to one component. -/
theorem followAlias_eq_ok_of_reaches {other : String} (h : ReflTransGen d.AliasOf name next) :
    d.followAlias context name = .ok target ↔ d.followAlias other next = .ok target := by
  rw [followAlias_eq_ok_iff, followAlias_eq_ok_iff]
  constructor
  · rintro ⟨hr, hc⟩
    refine ⟨?_, hc⟩
    rcases ReflTransGen.total_of_right_unique (aliasOf_rightUnique d) h hr with hnext | hend
    · exact hnext
    -- there is nothing behind the end of the chain
    · rcases hend.cases_head with rfl | ⟨behind, hstep, -⟩
      · exact .refl
      · exact absurd hstep hc.not_aliasOf
  · rintro ⟨hr, hc⟩
    exact ⟨h.trans hr, hc⟩

/-- A component that admits null, though what it leads to does not. -/
def AddsNull (d : Document) (name : String) : Prop :=
  ∃ node target s, d.find? name = some node ∧ node.isNullable ∧
    d.followAlias name name = .ok target ∧ d.definition? target = some s ∧ s.isNullable = false

theorem resolveRef_of_component {path : String} (h : Reference.component? path = some name) :
    d.resolveRef context path = d.followAlias context name := by
  rw [resolveRef, h]

theorem namesNullable_eq_false {path : String} (hp : Reference.component? path = some name)
    (h : d.RefersTo name next) : d.namesNullable path = false := by
  obtain ⟨further, hf, -⟩ := h
  rw [namesNullable, hp, Option.bind_some, hf]
  rfl

/-- A reference to a component that adds null says so, and no other one needs to. -/
theorem namesNullable_iff {path : String} {s : Schema} (hp : Reference.component? path = some name)
    (hf : d.followAlias context name = .ok target) (hs : d.definition? target = some s) :
    (d.namesNullable path || s.isNullable) = s.isNullable ↔ ¬d.AddsNull name := by
  have hown : d.followAlias name name = .ok target :=
    (followAlias_eq_ok_of_reaches .refl).1 hf
  cases hnull : s.isNullable with
  | true =>
    refine iff_of_true (Bool.or_true _) ?_
    rintro ⟨node, other, t, -, -, hother, ht, hfalse⟩
    rw [hown, Except.ok.injEq] at hother
    subst hother
    rw [hs, Option.some.injEq] at ht
    subst ht
    rw [hnull] at hfalse
    cases hfalse
  | false =>
    rw [Bool.or_false, namesNullable, hp, Option.bind_some]
    cases hnode : d.find? name with
    | none =>
      refine iff_of_true rfl ?_
      rintro ⟨node, other, t, hfind, -⟩
      rw [hnode] at hfind
      cases hfind
    | some node =>
      dsimp only
      cases hadmits : node.isNullable with
      | true =>
        refine iff_of_false Bool.noConfusion fun h => h ?_
        exact ⟨node, target, s, hnode, hadmits, hown, hs, hnull⟩
      | false =>
        refine iff_of_true rfl ?_
        rintro ⟨other, -, -, hfind, htrue, -⟩
        rw [hnode, Option.some.injEq] at hfind
        subst hfind
        rw [hadmits] at htrue
        cases htrue

end Document

section

variable [Libraries]

namespace Scope

variable {scope : Scope} {owner key : String} {pointer : Pointer}

/-- A property that is declared by a reference is resolved if the reference leads to a component
that has a type. -/
theorem target_of_resolveProperty_ref {target : String} {p : ResolvedProperty}
    (h : (scope.resolveProperty owner pointer key (.ref target)).outcome = .ok p) :
    ∃ name, scope.document.resolveRef owner target = .ok name ∧
      (scope.componentType [] name).outcome = .ok p.type := by
  obtain ⟨effective, -, ht, -⟩ := resolveProperty_eq_ok h
  rw [typeNode_ref] at ht
  simp only [Traced.outcome_bind_eq_ok_iff, Traced.outcome_lift, Traced.outcome_pure] at ht
  obtain ⟨name, hr, type, htype, hpure⟩ := ht
  rw [Except.ok.injEq, Prod.mk.injEq] at hpure
  obtain ⟨rfl, -⟩ := hpure
  exact ⟨name, hr, htype⟩

/-- Two references that lead to one component declare the same but for null. -/
theorem resolveProperty_ref_twice {a b name : String} {s : Schema} {p : ResolvedProperty}
    (ha : scope.document.resolveRef owner a = .ok name)
    (hb : scope.document.resolveRef owner b = .ok name)
    (hs : scope.document.definition? name = some s)
    (h : (scope.resolveProperty owner pointer key (.ref a)).outcome = .ok p) :
    p.nullable = (scope.document.namesNullable a || s.isNullable) ∧
      (scope.resolveProperty owner pointer key (.ref b)).outcome =
        .ok { p with nullable := scope.document.namesNullable b || s.isNullable } := by
  obtain ⟨other, hr, ht⟩ := target_of_resolveProperty_ref h
  rw [ha, Except.ok.injEq] at hr
  subst hr
  obtain ⟨kind, hk⟩ := exists_propertyKind owner key (.ref a) p.type s.read
  have hp : (scope.resolveProperty owner pointer key (.ref a)).outcome = _ :=
    resolveProperty_ref ha hs ht hk
  rw [h, Except.ok.injEq] at hp
  rw [propertyKind_ref owner key a b] at hk
  have hq : (scope.resolveProperty owner pointer key (.ref b)).outcome = _ :=
    resolveProperty_ref hb hs ht hk
  rw [hp]
  exact ⟨rfl, hq⟩

/-- A bare reference means what any later name of its chain means, unless that one adds null to
what it leads to. -/
theorem resolveProperty_alias_iff {name next later a b : String}
    (hname : scope.document.RefersTo name next)
    (hchain : ReflTransGen scope.document.AliasOf next later)
    (ha : Reference.component? a = some name) (hb : Reference.component? b = some later)
    (owner : String) (pointer : Pointer) (key : String) :
    ((∃ e, (scope.resolveProperty owner pointer key (.ref a)).outcome = .error e) ∧
      ∃ e, (scope.resolveProperty owner pointer key (.ref b)).outcome = .error e) ∨
    ∃ p q, (scope.resolveProperty owner pointer key (.ref a)).outcome = .ok p ∧
      (scope.resolveProperty owner pointer key (.ref b)).outcome = .ok q ∧
        { p with nullable := q.nullable } = q ∧
          (p = q ↔ ¬scope.document.AddsNull later) := by
  have hreaches : ReflTransGen scope.document.AliasOf name later := .head hname.aliasOf hchain
  have hends : ∀ target, scope.document.resolveRef owner a = .ok target ↔
      scope.document.resolveRef owner b = .ok target := by
    intro target
    rw [Document.resolveRef_of_component ha, Document.resolveRef_of_component hb]
    exact Document.followAlias_eq_ok_of_reaches hreaches
  cases hp : (scope.resolveProperty owner pointer key (.ref a)).outcome with
  | error e =>
    cases hq : (scope.resolveProperty owner pointer key (.ref b)).outcome with
    | error e' => exact .inl ⟨⟨e, rfl⟩, e', rfl⟩
    | ok q =>
      obtain ⟨target, hr, -⟩ := target_of_resolveProperty_ref hq
      obtain ⟨s, hs, -⟩ := (Document.canonical_of_resolveRef hr).definition
      have htwice := (resolveProperty_ref_twice hr ((hends target).2 hr) hs hq).2
      rw [hp] at htwice
      cases htwice
  | ok p =>
    obtain ⟨target, hr, -⟩ := target_of_resolveProperty_ref hp
    obtain ⟨s, hs, -⟩ := (Document.canonical_of_resolveRef hr).definition
    have hr' := (hends target).1 hr
    obtain ⟨hnull, hq⟩ := resolveProperty_ref_twice hr hr' hs hp
    refine .inr ⟨p, _, rfl, hq, rfl, ?_⟩
    rw [Document.resolveRef_of_component hb] at hr'
    rw [Document.namesNullable_eq_false ha hname, Bool.false_or] at hnull
    rw [← Document.namesNullable_iff hb hr' hs, ← hnull]
    constructor
    · intro h
      exact congrArg ResolvedProperty.nullable h.symm
    · intro h
      rw [h]

end Scope

end

/-- A reference to a text or null, behind a bare reference to it. -/
def nullBehindAlias : Document :=
  let text : Node := .schema { Schema.empty with type := some (.single .string) }
  let null : Node := .schema { Schema.empty with type := some (.single .null) }
  ⟨"3.0.3", default,
    [("A", .ref "#/components/schemas/B"),
      ("B", .schema { Schema.empty with oneOf := [.ref "#/components/schemas/C", null] }),
      ("C", text),
      ("S", .schema { Schema.empty with
        type := some (.single .object)
        properties := [("p", .ref "#/components/schemas/A")] })], by decide⟩

theorem nullBehindAlias_refersTo : nullBehindAlias.RefersTo "A" "B" :=
  ⟨"#/components/schemas/B", by cbv, by cbv⟩

theorem resolveProperty_alias_iff_null_behind : nullBehindAlias.RefersTo "A" "B" ∧
    ReflTransGen nullBehindAlias.AliasOf "B" "C" ∧
    Reference.component? "#/components/schemas/A" = some "A" ∧
    Reference.component? "#/components/schemas/C" = some "C" ∧
    (((∃ e, (Scope.resolveProperty ⟨nullBehindAlias, []⟩ "S" (.ofComponent "S") "p"
        (.ref "#/components/schemas/A")).outcome = .error e) ∧
      ∃ e, (Scope.resolveProperty ⟨nullBehindAlias, []⟩ "S" (.ofComponent "S") "p"
        (.ref "#/components/schemas/C")).outcome = .error e) ∨
    ∃ p q, (Scope.resolveProperty ⟨nullBehindAlias, []⟩ "S" (.ofComponent "S") "p"
        (.ref "#/components/schemas/A")).outcome = .ok p ∧
      (Scope.resolveProperty ⟨nullBehindAlias, []⟩ "S" (.ofComponent "S") "p"
        (.ref "#/components/schemas/C")).outcome = .ok q ∧
        { p with nullable := q.nullable } = q ∧ (p = q ↔ ¬nullBehindAlias.AddsNull "C")) := by
  have ha : Reference.component? "#/components/schemas/A" = some "A" := by cbv
  have hc : Reference.component? "#/components/schemas/C" = some "C" := by cbv
  have hnode : (nullBehindAlias.find? "B").bind Node.aliasTarget? =
      some "#/components/schemas/C" := by cbv
  obtain ⟨node, hfind, htarget⟩ := Option.bind_eq_some_iff.1 hnode
  have hchain : ReflTransGen nullBehindAlias.AliasOf "B" "C" :=
    .single ⟨node, _, hfind, htarget, hc⟩
  exact ⟨nullBehindAlias_refersTo, hchain, ha, hc,
    Scope.resolveProperty_alias_iff nullBehindAlias_refersTo hchain ha hc
      "S" (.ofComponent "S") "p"⟩

/-- The bare reference admits no null, although what it refers to does. -/
theorem nullBehindAlias_loses_null : nullBehindAlias.RefersTo "A" "B" ∧
    ∃ p q, (Scope.resolveProperty ⟨nullBehindAlias, []⟩ "S" (.ofComponent "S") "p"
        (.ref "#/components/schemas/A")).outcome = .ok p ∧
      (Scope.resolveProperty ⟨nullBehindAlias, []⟩ "S" (.ofComponent "S") "p"
        (.ref "#/components/schemas/B")).outcome = .ok q ∧
        p.nullable = false ∧ q.nullable = true := by
  have hp : ((Scope.resolveProperty ⟨nullBehindAlias, []⟩ "S" (.ofComponent "S") "p"
      (.ref "#/components/schemas/A")).outcome.toOption.map ResolvedProperty.nullable) =
        some false := by cbv
  have hq : ((Scope.resolveProperty ⟨nullBehindAlias, []⟩ "S" (.ofComponent "S") "p"
      (.ref "#/components/schemas/B")).outcome.toOption.map ResolvedProperty.nullable) =
        some true := by cbv
  obtain ⟨p, hp, hpnull⟩ := toOption_map_eq_some_iff.1 hp
  obtain ⟨q, hq, hqnull⟩ := toOption_map_eq_some_iff.1 hq
  exact ⟨nullBehindAlias_refersTo, p, q, hp, hq, hpnull, hqnull⟩

end SchemaModel
