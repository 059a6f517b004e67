import SchemaModel.Proofs.Libraries.Words
import SchemaModel.Proofs.Resolve.Suffixes

/-!
Names of inline schemas grow by letters and digits. What is entered at a position takes the base of
its name from the place one step outside (`Place.base?`). Values hand the base on, so it extends the
name of the innermost schema around the position (`Scope.based_push`, `Scope.value_based`). New
names put digits behind old ones, and all of them extend the name of their component
(`Resolver.Rounds.grows`).
-/

namespace SchemaModel

namespace Pointer

theorem encloses_push_iff {p q : Pointer} {step : Step} :
    q.encloses (p.push step) ↔ q = p ∨ q.encloses p := by
  constructor
  · intro h
    obtain ⟨component, steps⟩ := p
    obtain ⟨first, rest, hpush⟩ := encloses_iff.1 h
    obtain ⟨rfl, hsteps⟩ := Pointer.mk.inj hpush
    rcases List.eq_nil_or_concat' rest with rfl | ⟨more, last, rfl⟩
    · obtain ⟨rfl, -⟩ := List.append_inj' hsteps rfl
      exact .inl rfl
    · rw [← List.cons_append, ← List.append_assoc] at hsteps
      obtain ⟨rfl, -⟩ := List.append_inj' hsteps rfl
      exact .inr (encloses_iff.2 ⟨first, more, rfl⟩)
  · rintro (rfl | h)
    · exact encloses_push q step
    · exact encloses_trans h (encloses_push p step)

theorem component_of_encloses {p q : Pointer} (h : p.encloses q) : q.component = p.component := by
  obtain ⟨step, rest, rfl⟩ := encloses_iff.1 h
  rfl

end Pointer

section

variable [Libraries]

namespace Place

/-- The name that the names inside a place begin with. -/
def name : Place → String
  | .owner name _ => name
  | .value base _ => base

/-- The base of the name of what is entered one step inside a place. Branches of an owner are
merged into it or stand for it, they are not entered. -/
def base? : Place → Step → Option String
  | .owner name _, .property key => some (Naming.inlineName name key)
  | .owner name _, .items => some (name ++ "Item")
  | .owner name _, .additional => some (name ++ "Value")
  | .owner _ _, _ => none
  | .value base _, .items => some (base ++ "Item")
  | .value base _, .additional => some (base ++ "Value")
  | .value base _, _ => some base

end Place

namespace Scope

open Naming (Extends)

variable {scope : Scope} {order : List String} {p q outer pointer : Pointer} {step : Step}
  {place inner : Place} {name base owner : String} {s : Schema} {node : Node}

theorem extends_of_base? [Naming.LawfulPascal] (h : place.base? step = some base) :
    Extends base place.name ∨ ∃ node, place = .value base node := by
  have hitem : ∀ name : String, Extends (name ++ "Item") name := fun name =>
    ⟨"Item", ⟨by decide, List.all_eq_true.1 (by decide)⟩, rfl⟩
  have hvalue : ∀ name : String, Extends (name ++ "Value") name := fun name =>
    ⟨"Value", ⟨by decide, List.all_eq_true.1 (by decide)⟩, rfl⟩
  unfold Place.base? at h
  split at h <;> cases h
  · exact .inl (Naming.inlineName_extends _ _)
  · exact .inl (hitem _)
  · exact .inl (hvalue _)
  · exact .inl (hitem _)
  · exact .inl (hvalue _)
  · exact .inr ⟨_, rfl⟩

/-- A place inside another one is a branch of an owner, under the same name, or it is entered with
the base of the step. -/
theorem childPlace_cases (h : scope.childPlace pointer place step = some inner) :
    (∃ name s t, place = .owner name s ∧ inner = .owner name t ∧ place.base? step = none) ∨
      ∃ base node, place.base? step = some base ∧ ∀ scope' : Scope,
        scope'.childPlace pointer place step = some (scope'.enter pointer base node) := by
  have hbranch : ∀ {name : String} {node? : Option Node}, innerOwner name node? = some inner →
      ∃ t, inner = .owner name t := by
    intro name node? h
    unfold innerOwner at h
    split at h
    · exact ⟨_, (Option.some.inj h).symm⟩
    · cases h
  unfold childPlace at h
  split at h
  case h_1 | h_2 | h_7 | h_9 | h_10 =>
    obtain ⟨node, hnode, -⟩ := Option.map_eq_some_iff.1 h
    exact .inr ⟨_, node, rfl, fun scope' => by rw [childPlace, hnode, Option.map_some]⟩
  case h_3 | h_8 =>
    split at h
    · rename_i node hnode
      exact .inr ⟨_, node, rfl, fun scope' => by rw [childPlace, hnode]⟩
    · cases h
  case h_4 | h_5 | h_6 =>
    obtain ⟨t, ht⟩ := hbranch h
    exact .inl ⟨_, _, t, rfl, ht, rfl⟩
  case h_11 => cases h

omit [Libraries] in
theorem eq_of_enter_eq_value {base' : String} {node' : Node}
    (h : scope.enter pointer base node = .value base' node') : base' = base := by
  cases node with
  | ref path =>
    cases h
    rfl
  | schema t =>
    by_cases hn : t.isNamed
    · rw [enter_of_named _ _ _ hn] at h
      cases h
    · rw [enter_of_not_named _ _ _ (by simpa using hn)] at h
      cases h
      rfl

/-- The innermost schema around a position that has a name: between the two there are only
values. -/
structure Holds (scope : Scope) (outer p : Pointer) (owner : String) : Prop where
  around : outer.encloses p
  place : ∃ s, scope.placeAt outer = some (.owner owner s)
  innermost : ∀ q : Pointer, outer.encloses q → q.encloses p →
    ∃ base node, scope.placeAt q = some (.value base node)

theorem holds_push (h : scope.placeAt p = some (.owner name s)) (step : Step) :
    scope.Holds p (p.push step) name where
  around := Pointer.encloses_push p step
  place := ⟨s, h⟩
  innermost q hpq hq := by
    have hlt := Pointer.length_lt_of_encloses hpq
    rcases Pointer.encloses_push_iff.1 hq with rfl | hqp
    · exact absurd hlt (Nat.lt_irrefl _)
    · exact absurd (Nat.lt_trans hlt (Pointer.length_lt_of_encloses hqp)) (Nat.lt_irrefl _)

theorem Holds.push (h : scope.Holds outer p owner)
    (hp : scope.placeAt p = some (.value base node)) (step : Step) :
    scope.Holds outer (p.push step) owner where
  around := Pointer.encloses_trans h.around (Pointer.encloses_push p step)
  place := h.place
  innermost q hq hqp := by
    rcases Pointer.encloses_push_iff.1 hqp with rfl | hqp
    · exact ⟨base, node, hp⟩
    · exact h.innermost q hq hqp

/-- The base is an extension of the name of the innermost schema around the position. -/
def Based (scope : Scope) (p : Pointer) (base : String) : Prop :=
  ∃ outer owner, scope.Holds outer p owner ∧ Extends base owner

theorem based_push [Naming.LawfulPascal] (hp : scope.placeAt p = some place)
    (hb : place.base? step = some base)
    (hvalue : ∀ base node, place = .value base node → scope.Based p base) :
    scope.Based (p.push step) base := by
  cases place with
  | owner name s =>
    rcases extends_of_base? hb with hextends | ⟨node, hplace⟩
    · exact ⟨p, name, holds_push hp step, hextends⟩
    · cases hplace
  | value outer node =>
    obtain ⟨around, owner, hholds, houter⟩ := hvalue outer node rfl
    refine ⟨around, owner, hholds.push hp step, ?_⟩
    rcases extends_of_base? hb with hextends | ⟨node', hplace⟩
    · exact hextends.trans houter
    · cases hplace
      exact houter

/-- Values hand the base on, from the schema around them. -/
theorem value_based [Naming.LawfulPascal] (h : scope.placeAt p = some (.value base node)) :
    scope.Based p base := by
  obtain ⟨component, steps⟩ := p
  induction steps using List.reverseRecOn generalizing base node with
  | nil =>
    obtain ⟨s, -, hs⟩ := Option.bind_eq_some_iff.1 h
    cases hs
  | append_singleton steps step ih =>
    change scope.placeAt (Pointer.push ⟨component, steps⟩ step) = some (.value base node) at h
    rw [placeAt_push] at h
    obtain ⟨place, hplace, hchild⟩ := Option.bind_eq_some_iff.1 h
    rcases childPlace_cases hchild with ⟨_, _, _, -, hinner, -⟩ | ⟨base', node', hbase, henter⟩
    · cases hinner
    · rw [henter scope, Option.some.injEq] at hchild
      obtain rfl := eq_of_enter_eq_value hchild
      refine based_push hplace hbase ?_
      rintro outer node rfl
      exact ih hplace

/-- What stands at a position is entered, with a base for its name. -/
def Entered (scope : Scope) (p : Pointer) : Prop :=
  ∃ outer step place base, p = outer.push step ∧ scope.placeAt outer = some place ∧
    place.base? step = some base

/-- A schema that is entered has its plain name, made from the base, or a new one. -/
theorem Entered.plain [Naming.LawfulPascal] (h : scope.Entered p)
    (hp : scope.placeAt p = some (.owner name s)) :
    ∃ base, scope.Based p base ∧ name = scope.inlineName base p ∧
      scope.plainName? p = some (Naming.fresh base scope.document.names) := by
  obtain ⟨outer, step, place, base, rfl, hplace, hbase⟩ := h
  have hbased : scope.Based (outer.push step) base := by
    refine based_push hplace hbase ?_
    rintro _ node rfl
    exact value_based hplace
  rw [placeAt_push, hplace, Option.bind_some] at hp
  rcases childPlace_cases hp with ⟨_, _, _, -, -, hnone⟩ | ⟨base', node, hsome, henter⟩
  · rw [hbase] at hnone
    cases hnone
  rw [hbase, Option.some.injEq] at hsome
  subst hsome
  rw [henter scope, Option.some.injEq] at hp
  have hname := enter_eq_owner hp
  refine ⟨base, hbased, ?_, ?_⟩
  · have hsame := hname scope
    rw [hp, Place.owner.injEq] at hsame
    exact hsame.1
  · have hplain : (scope.without (outer.push step)).placeAt (outer.push step) = some
        (.owner ((scope.without (outer.push step)).inlineName base (outer.push step)) s) := by
      rw [placeAt_push, placeAt_without_push, hplace, Option.bind_some, henter, hname]
    rw [plainName?_of_placeAt hplain, inlineName, lookup_without_self]
    rfl

theorem entered_push (hp : scope.placeAt p = some place) (hb : place.base? step = some base) :
    scope.Entered (p.push step) :=
  ⟨p, step, place, base, rfl, hp, hb⟩

/-- Whatever is one step inside a value is entered. -/
theorem entered_push_of_value (hp : scope.placeAt p = some (.value base node)) (step : Step) :
    scope.Entered (p.push step) := by
  obtain ⟨base', hb⟩ : ∃ base', (Place.value base node).base? step = some base' := by
    cases step <;> exact ⟨_, rfl⟩
  exact entered_push hp hb

/-- The inline schemas of the type of a node that is entered are entered. -/
theorem typeNode_entered {path : List String} {context : String} {type : TypeRef}
    {inlines : List Inline}
    (h : (scope.typeNode path context base node pointer).outcome = .ok (type, inlines))
    (hp : scope.placeAt pointer = some (scope.enter pointer base node))
    (he : scope.Entered pointer) : ∀ i ∈ inlines, scope.Entered i.pointer := by
  induction hsize : sizeOf node using Nat.strongRecOn generalizing node base pointer type with
  | ind n ih =>
    cases typeNode_origin h with
    | component => exact List.forall_mem_nil _
    | nameless => exact List.forall_mem_nil _
    | named hn => exact List.forall_mem_singleton.2 he
    | inside hn hlt hc ht =>
      rw [enter_of_not_named scope pointer base hn] at hp
      refine ih _ ?_ ht ?_ (entered_push_of_value hp _) rfl
      · rw [← hsize, Node.schema.sizeOf_spec]
        omega
      · rw [placeAt_push, hp, Option.bind_some, hc]

theorem Declares.entered {property : ResolvedProperty} (h : scope.Declares property) :
    ∀ i ∈ property.inlines, scope.Entered i.pointer := by
  obtain ⟨owner, pointer, s, node, hp, hk, h⟩ := h
  obtain ⟨effective, -, ht, -⟩ := resolveProperty_eq_ok h
  refine typeNode_entered ht ?_ (entered_push hp rfl)
  rw [placeAt_push, hp, Option.bind_some, childPlace, hk]
  rfl

theorem Admits.entered {a : AdditionalType} (h : scope.Admits a) :
    ∀ i ∈ a.inlines, scope.Entered i.pointer := by
  obtain ⟨owner, pointer, s, additional, hp, hs, h⟩ := h
  rcases additionalType_eq_some h with rfl | ⟨node, rfl, ht⟩
  · exact List.forall_mem_nil _
  · refine typeNode_entered ht ?_ (entered_push hp rfl)
    rw [placeAt_push, hp, Option.bind_some, childPlace, hs]

theorem Sourced.inlines_entered {o : ObjectShape} (ho : scope.Sourced o) :
    ∀ i ∈ o.inlines, scope.Entered i.pointer := by
  intro i hi
  rcases ObjectShape.mem_inlines_iff.1 hi with ⟨property, hproperty, hi⟩ | ⟨a, ha, hi⟩
  · exact (ho.declares property hproperty).entered i hi
  · exact (ho.admits a ha).entered i hi

theorem outline_entered {shape : Shape} {inlines : List Inline}
    (hp : scope.placeAt pointer = some (.owner name s))
    (h : (scope.outline name pointer s).outcome = .ok (.shape shape inlines)) :
    ∀ i ∈ inlines, scope.Entered i.pointer := by
  replace h := outlined_of_outline h
  induction h with
  | inside hc _ ih =>
    refine ih ?_
    rw [placeAt_push, hp, Option.bind_some]
    exact childPlace_owner_union (Schema.category_nullableOf hc)
  | object hc ho => exact (objectShape_sourced hp ho).inlines_entered
  | array hc ht =>
    refine typeNode_entered ht ?_ (entered_push hp rfl)
    rw [placeAt_push, hp, Option.bind_some, childPlace, Schema.category_array hc]
    rfl
  | map hc ht =>
    refine typeNode_entered ht ?_ (entered_push hp rfl)
    rw [placeAt_push, hp, Option.bind_some, childPlace, Schema.category_map hc]
  | enum | anyArray | anyMap | union | primitive => exact List.forall_mem_nil _

theorem Visits.entered {site : Site} (h : scope.Visits order site) (hi : site.inline) :
    scope.Entered site.pointer := by
  cases h with
  | component => cases hi
  | same => cases hi
  | inside visits outline mem => exact outline_entered visits.grounded.place outline _ mem

/-- An inline schema has its plain name or a new one. The plain name extends that of the innermost
schema around it. -/
theorem Visits.extends_owner [Naming.LawfulPascal] {site : Site} (h : scope.Visits order site)
    (hi : site.inline) :
    ∃ plain, scope.plainName? site.pointer = some plain ∧ scope.Based site.pointer plain ∧
      (site.name = plain ∨ scope.renames.lookup site.pointer = some site.name) := by
  obtain ⟨base, ⟨outer, owner, hholds, hextends⟩, hname, hplain⟩ :=
    (h.entered hi).plain h.grounded.place
  refine ⟨_, hplain, ⟨outer, owner, hholds, hextends.fresh _⟩, ?_⟩
  rw [hname, inlineName]
  cases hl : scope.renames.lookup site.pointer with
  | none => exact .inl rfl
  | some new => exact .inr rfl

/-- Every new name extends that of the component around its position. -/
def Grows (scope : Scope) : Prop := ∀ e ∈ scope.renames, Extends e.2 e.1.component

omit [Libraries] in
theorem Grows.inlineName (hg : scope.Grows) (h : Extends base p.component) :
    Extends (scope.inlineName base p) p.component := by
  unfold Scope.inlineName
  split
  · rename_i new hl
    exact hg _ (mem_of_lookup hl)
  · exact h.fresh _

theorem Based.extends_component (h : scope.Based p base)
    (hall : ∀ outer name s, outer.encloses p → scope.placeAt outer = some (.owner name s) →
      name = outer.component ∨ Extends name outer.component) : Extends base p.component := by
  obtain ⟨outer, owner, hholds, hextends⟩ := h
  obtain ⟨s, hplace⟩ := hholds.place
  rw [Pointer.component_of_encloses hholds.around]
  rcases hall outer owner s hholds.around hplace with heq | howner
  · rwa [← heq]
  · exact hextends.trans howner

/-- What is resolved at a position has the name of its component, or one that extends it. -/
theorem Grows.name_eq_or_extends [Naming.LawfulPascal] (hg : scope.Grows)
    (h : scope.placeAt p = some (.owner name s)) :
    name = p.component ∨ Extends name p.component := by
  induction hn : p.steps.length using Nat.strongRecOn generalizing p name s with
  | ind n ih =>
    -- a base comes from a schema around the position, not only from the one a step outside
    have hshorter : ∀ outer name s, outer.encloses p → scope.placeAt outer = some (.owner name s) →
        name = outer.component ∨ Extends name outer.component :=
      fun outer name s hencloses hplace =>
        ih _ (hn ▸ Pointer.length_lt_of_encloses hencloses) hplace rfl
    rcases p.eq_ofComponent_or_push with hp | ⟨outer, step, rfl⟩
    · rw [hp] at h
      obtain ⟨s', -, hs'⟩ := Option.bind_eq_some_iff.1 h
      cases hs'
      exact .inl rfl
    have hplace := h
    rw [placeAt_push] at hplace
    obtain ⟨place, hplace, hchild⟩ := Option.bind_eq_some_iff.1 hplace
    rcases childPlace_cases hchild with ⟨_, _, t, rfl, hinner, -⟩ | ⟨base, node, hbase, -⟩
    · cases hinner
      exact hshorter outer name _ (Pointer.encloses_push outer step) hplace
    · obtain ⟨base, hbased, rfl, -⟩ := (entered_push hplace hbase).plain h
      exact .inr (hg.inlineName (hbased.extends_component hshorter))

/-- An inline schema extends the name of its component. It has its plain name, which extends the
name of the innermost schema around it, or a new one that was given to its position. -/
structure NamesInside (scope : Scope) (s : Resolved) : Prop where
  component : Extends s.name s.pointer.component
  plain : ∃ plain, scope.plainName? s.pointer = some plain ∧ scope.Based s.pointer plain ∧
    (s.name = plain ∨ scope.renames.lookup s.pointer = some s.name)

theorem Visits.extends_component [Naming.LawfulPascal] {site : Site}
    (h : scope.Visits order site) (hi : site.inline) (hg : scope.Grows) :
    Extends site.name site.pointer.component := by
  obtain ⟨base, hbased, hname, -⟩ := (h.entered hi).plain h.grounded.place
  rw [hname]
  exact hg.inlineName (hbased.extends_component fun _ _ _ _ => hg.name_eq_or_extends)

end Scope

namespace Resolver

variable {d : Document} {order : List String} {renames : List (Pointer × String)}

omit [Libraries] in
/-- A new name is an old one that collides, made fresh. -/
theorem exists_fresh_of_mem_renameAll {used : List String} {colliding : List (String × Pointer)}
    {e : Pointer × String} (h : e ∈ renameAll used colliding) :
    ∃ old used', (old, e.1) ∈ colliding ∧ e.2 = Naming.fresh old used' := by
  induction colliding generalizing used with
  | nil => cases h
  | cons first rest ih =>
    obtain ⟨name, pointer⟩ := first
    rcases List.mem_cons.1 h with rfl | h
    · exact ⟨name, used, List.mem_cons_self, rfl⟩
    · obtain ⟨old, used', hold, hfresh⟩ := ih h
      exact ⟨old, used', List.mem_cons_of_mem _ hold, hfresh⟩

/-- A pass gives new names that extend old ones. -/
theorem Complete.inlineRenames_extends [Naming.LawfulPascal] {r : Resolver}
    (hr : Complete ⟨d, renames⟩ order r) (ha : Scope.AvoidsComponents ⟨d, renames⟩)
    (hg : Scope.Grows ⟨d, renames⟩) {e : Pointer × String} (he : e ∈ r.inlineRenames) :
    Naming.Extends e.2 e.1.component := by
  obtain ⟨old, used, hmem, hfresh⟩ := exists_fresh_of_mem_renameAll he
  obtain ⟨hcalled, q, hq, hlt⟩ := mem_collisions_iff.1 (List.mem_filter.1 hmem).1
  obtain ⟨site, hv, hp, rfl⟩ := hcalled.site hr
  have hne : q ≠ site.pointer := by
    rintro rfl
    rw [hp] at hlt
    exact String.lt_irrefl _ hlt
  have hextends := hv.extends_component (hr.inline_of_called ha hv hq hne) hg
  rw [hfresh, ← hp]
  exact hextends.fresh used

theorem Rounds.grows [Naming.LawfulPascal] (h : Rounds d order renames) :
    Scope.Grows ⟨d, renames⟩ := by
  induction h with
  | start =>
    intro e he
    cases he
  | next before resolves collides ih =>
    intro e he
    rcases List.mem_append.1 he with he | he
    · exact (pass_complete resolves).inlineRenames_extends before.avoidsComponents ih he
    · exact ih e he

end Resolver

/-- How the inline schemas of a graph are named in its last pass. -/
theorem Document.resolve_namesInside [Naming.LawfulPascal] {d : Document} {order : List String}
    {g : Graph} (h : d.resolve order = .ok g) : ∃ renames r, Resolver.Rounds d order renames ∧
      Resolver.pass ⟨d, renames⟩ order = .ok r ∧ r.inlineRenames = [] ∧ g = r.toGraph ∧
      ∀ s ∈ g.schemas.values, s.inline → Scope.NamesInside ⟨d, renames⟩ s := by
  obtain ⟨r, ⟨renames, hrounds, hp, hn⟩, rfl⟩ := lastPass_of_resolve h
  refine ⟨renames, r, hrounds, hp, hn, rfl, ?_⟩
  intro s hs hinline
  obtain ⟨name, hfind⟩ := NameMap.mem_values_iff.1 hs
  obtain ⟨site, shape, hv, -, rfl, rfl⟩ :=
    ((Resolver.pass_complete hp).find?_toGraph hn).1 hfind
  exact ⟨hv.extends_component hinline hrounds.grows, hv.extends_owner hinline⟩

/-- Sanitizing gives clean texts and changes them no more, and a key puts letters and digits behind
the name of its owner. So in a graph the name that is made for an inline schema extends that of the
schema around it. -/
theorem Document.clean_names [Naming.LawfulAscii] [Naming.LawfulPascal] :
    Naming.SegmentRules ∧
      ∀ (d : Document) (order : List String) (g : Graph), d.resolve order = .ok g →
      ∃ renames r, Resolver.Rounds d order renames ∧
        Resolver.pass ⟨d, renames⟩ order = .ok r ∧ r.inlineRenames = [] ∧ g = r.toGraph ∧
        ∀ s ∈ g.schemas.values, s.inline → Scope.NamesInside ⟨d, renames⟩ s :=
  ⟨Naming.segmentRules, fun _ _ _ h => resolve_namesInside h⟩

end

theorem clean_names_shared_name : ∃ g, sharedName.resolve ["AB", "A"] = .ok g ∧
    ∃ renames r, Resolver.Rounds sharedName ["AB", "A"] renames ∧
      Resolver.pass ⟨sharedName, renames⟩ ["AB", "A"] = .ok r ∧ r.inlineRenames = [] ∧
      g = r.toGraph ∧
      (∀ s ∈ g.schemas.values, s.inline → Scope.NamesInside ⟨sharedName, renames⟩ s) ∧
      ∃ s, g.schemas.find? "ABC2" = some s ∧ s.inline ∧ Naming.Extends "ABC2" "AB" ∧
        renames.lookup ((Pointer.ofComponent "AB").push (.property "c")) = some "ABC2" := by
  obtain ⟨g, s, -, hg, hs, hname, hinline, hpointer, -⟩ := sharedName_inner
  obtain ⟨renames, r, hrounds, hp, hn, hgraph, hinside⟩ :=
    Document.clean_names.2 sharedName ["AB", "A"] g hg
  obtain ⟨hcomponent, plain, hplain, -, hcalled⟩ :=
    hinside s (NameMap.mem_values_iff.2 ⟨"ABC2", hs⟩) hinline
  rw [hname, hpointer] at hcomponent
  rw [hpointer, sharedName_plainName?, Option.some.injEq] at hplain
  rw [hname, hpointer, ← hplain] at hcalled
  exact ⟨g, hg, renames, r, hrounds, hp, hn, hgraph, hinside, s, hs, hinline, hcomponent,
    hcalled.resolve_left (by decide)⟩

end SchemaModel
