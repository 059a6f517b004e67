import SchemaModel.Proofs.Computed
import SchemaModel.Proofs.Resolve.Conflict

/-!
Merging an object against a definition that knows of no memory and no accumulator. The declarations
of a schema are those of its branches in order, followed by its own (`Scope.Declarations`); a
referenced branch has those of its component, an inline one is read under the name of the schema.
Merging puts them one after another (`Scope.merging_amounts`). So it succeeds exactly if those of
one key have one type, and then each key stands where it is first declared and as it is last
declared (`Scope.mergeComponentM_flattens`).
-/

namespace SchemaModel

open Relation

namespace ObjectShape

/-- All declarations put over what is there, one after another. -/
def putAll (declarations l : List ResolvedProperty) : List ResolvedProperty :=
  declarations.foldl (fun l p => put p l) l

@[simp] theorem putAll_nil (l : List ResolvedProperty) : putAll [] l = l := rfl

@[simp] theorem putAll_cons (p : ResolvedProperty) (rest l : List ResolvedProperty) :
    putAll (p :: rest) l = putAll rest (put p l) := rfl

@[simp] theorem putAll_append (a b l : List ResolvedProperty) :
    putAll (a ++ b) l = putAll b (putAll a l) := List.foldl_append

theorem put_put_of_key_eq {p q : ResolvedProperty} (h : q.key = p.key) (l : List ResolvedProperty) :
    put p (put q l) = put p l := by
  induction l with
  | nil => simp [put, h]
  | cons r rest ih =>
    by_cases hr : r.key = p.key
    · simp [put, h, hr]
    · simp [put, h, hr, ih]

theorem map_key_put (p : ResolvedProperty) (l : List ResolvedProperty) :
    (put p l).map ResolvedProperty.key =
      if p.key ∈ l.map ResolvedProperty.key then l.map ResolvedProperty.key
      else l.map ResolvedProperty.key ++ [p.key] := by
  induction l with
  | nil => simp [put]
  | cons q rest ih =>
    unfold put
    by_cases hq : q.key = p.key
    · simp [hq]
    · have hne : ¬p.key = q.key := fun h => hq h.symm
      rw [if_neg hq, List.map_cons, ih]
      by_cases hp : p.key ∈ rest.map ResolvedProperty.key <;> simp [hp, hne]

/-- Over a key that is there already, the order of two declarations does not matter. -/
theorem put_comm {p q : ResolvedProperty} {l : List ResolvedProperty} (hne : q.key ≠ p.key)
    (hp : p.key ∈ l.map ResolvedProperty.key) : put p (put q l) = put q (put p l) := by
  induction l with
  | nil => cases hp
  | cons r rest ih =>
    by_cases hr : r.key = p.key
    · have hq : ¬r.key = q.key := fun h => hne (h.symm.trans hr)
      have hq' : ¬p.key = q.key := fun h => hne h.symm
      simp [put, hr, hq']
    · have hrest : p.key ∈ rest.map ResolvedProperty.key := by
        rcases List.mem_cons.1 hp with h | h
        · exact absurd h.symm hr
        · exact h
      by_cases hq : r.key = q.key
      · simp [put, hq, hne]
      · simp [put, hr, hq, ih hrest]

theorem put_putAll_of_mem {p : ResolvedProperty} {declarations l : List ResolvedProperty}
    (hp : p.key ∈ l.map ResolvedProperty.key)
    (hne : p.key ∉ declarations.map ResolvedProperty.key) :
    put p (putAll declarations l) = putAll declarations (put p l) := by
  induction declarations generalizing l with
  | nil => rfl
  | cons q rest ih =>
    rw [List.map_cons, List.mem_cons, not_or] at hne
    have hq : p.key ∈ (put q l).map ResolvedProperty.key := by
      rw [map_key_put]
      split
      · exact hp
      · exact List.mem_append_left _ hp
    rw [putAll_cons, putAll_cons, ← put_comm (fun h => hne.1 h.symm) hp]
    exact ih hq hne.2

/-- Putting over `l` what was put together before. -/
theorem putAll_put {p : ResolvedProperty} {m : List ResolvedProperty}
    (hn : (m.map ResolvedProperty.key).Nodup) (l : List ResolvedProperty) :
    putAll (put p m) l = put p (putAll m l) := by
  induction m generalizing l with
  | nil => rfl
  | cons q rest ih =>
    obtain ⟨hq, hrest⟩ := List.nodup_cons.1 hn
    by_cases hk : q.key = p.key
    · have hp : p.key ∈ (put q l).map ResolvedProperty.key := by
        rw [map_key_put, hk]
        split
        · assumption
        · exact List.mem_append_right _ List.mem_cons_self
      rw [put, if_pos hk, putAll_cons, putAll_cons, put_putAll_of_mem hp (hk ▸ hq),
        put_put_of_key_eq hk]
    · rw [put, if_neg hk]
      exact ih hrest (put q l)

theorem putAll_putAll {declarations m : List ResolvedProperty}
    (hn : (m.map ResolvedProperty.key).Nodup) (l : List ResolvedProperty) :
    putAll (putAll declarations m) l = putAll declarations (putAll m l) := by
  induction declarations generalizing m with
  | nil => rfl
  | cons p rest ih =>
    rw [putAll_cons, putAll_cons, ← putAll_put hn]
    exact ih (nodup_put hn)

/-- Each key stands where it is first declared. -/
theorem map_key_putAll (declarations : List ResolvedProperty) :
    (putAll declarations []).map ResolvedProperty.key =
      (declarations.map ResolvedProperty.key).eraseDups := by
  induction declarations using List.reverseRecOn with
  | nil => rfl
  | append_singleton rest p ih =>
    rw [putAll_append, putAll_cons, putAll_nil, map_key_put, ih, List.map_append,
      List.eraseDups_append]
    by_cases hp : p.key ∈ rest.map ResolvedProperty.key
    · rw [if_pos (List.mem_eraseDups.2 hp)]
      simp [List.removeAll, List.mem_map.1 hp]
    · rw [if_neg fun h => hp (List.mem_eraseDups.1 h)]
      have hremove : [p.key].removeAll (rest.map ResolvedProperty.key) = [p.key] := by
        simpa [List.removeAll] using hp
      rw [List.map_singleton, hremove]
      rfl

/-- Each key carries its last declaration. -/
theorem find?_putAll (declarations : List ResolvedProperty) (key : String) :
    (putAll declarations []).find? (fun p => p.key == key) =
      declarations.reverse.find? fun p => p.key == key := by
  induction declarations using List.reverseRecOn with
  | nil => rfl
  | append_singleton rest p ih =>
    rw [putAll_append, putAll_cons, putAll_nil, find?_put, List.reverse_append,
      List.reverse_singleton, List.singleton_append, List.find?_cons, ← ih]
    by_cases hk : p.key = key
    · simp [hk]
    · rw [if_neg hk, beq_eq_false_iff_ne.2 hk]

/-- An object, or an error, that comes of putting declarations over what is there. -/
structure Amounts (l declarations : List ResolvedProperty) (x : Except ModelError ObjectShape) :
    Prop where
  properties : ∀ o, x = .ok o → o.properties = putAll declarations l
  clashes : ∀ e, x = .error e → Clashes (fun p => p ∈ l ∨ p ∈ declarations) e

variable {l a b : List ResolvedProperty} {x : Except ModelError ObjectShape}

theorem amounts_ok {o : ObjectShape} (h : o.properties = putAll a l) : Amounts l a (.ok o) where
  properties o' ho := by
    cases ho
    exact h
  clashes e he := by cases he

theorem mem_of_mem_putAll {p : ResolvedProperty} (h : p ∈ putAll a l) : p ∈ l ∨ p ∈ a :=
  (mem_of_mem_foldl_put h).symm

theorem Amounts.bind (h : Amounts l a x) {f : ObjectShape → Except ModelError ObjectShape}
    (hf : ∀ o, x = .ok o → Amounts o.properties b (f o)) : Amounts l (a ++ b) (x >>= f) where
  properties o ho := by
    obtain ⟨o₁, h₁, ho⟩ := bind_eq_ok_iff.1 ho
    rw [(hf o₁ h₁).properties o ho, h.properties o₁ h₁, putAll_append]
  clashes e he := by
    rcases bind_eq_error_iff.1 he with he | ⟨o₁, h₁, he⟩
    · exact (h.clashes e he).mono fun p hp => hp.imp_right fun hp => List.mem_append_left _ hp
    · refine ((hf o₁ h₁).clashes e he).mono ?_
      rintro p (hp | hp)
      · rw [h.properties o₁ h₁] at hp
        exact (mem_of_mem_putAll hp).imp_right fun hp => List.mem_append_left _ hp
      · exact .inr (List.mem_append_right _ hp)

theorem foldlM_declare_amounts (name : String) (o : ObjectShape)
    (declarations : List ResolvedProperty) :
    Amounts o.properties declarations (declarations.foldlM (declare name) o) where
  properties o' ho := by
    rw [foldlM_declare_eq_ok ho]
    rfl
  clashes e he := clashes_of_foldlM_declare (fun q hq => .inl hq) (fun q hq => .inr hq) he

/-- Merging an object that was put together before amounts to putting its declarations. -/
theorem Amounts.merge {inherited o : ObjectShape} {name : String} {inlineBranch : Bool}
    (h : inherited.properties = putAll a []) :
    Amounts o.properties a (o.merge name inherited inlineBranch) where
  properties o' ho := by
    rw [merge_eq_ok ho]
    change putAll inherited.properties o.properties = _
    rw [h]
    exact putAll_putAll (m := []) List.nodup_nil o.properties
  clashes e he := by
    refine clashes_of_merge (fun q hq => .inl hq) ?_ he
    intro q hq
    rw [h] at hq
    exact .inr ((mem_of_mem_putAll hq).resolve_left List.not_mem_nil)

/-- A branch that is found, merged, and followed by what is left. -/
theorem Amounts.branch {o : ObjectShape} {name : String} {inlineBranch : Bool}
    (h : Amounts [] a x) {f : ObjectShape → ObjectShape → Except ModelError ObjectShape}
    (hf : ∀ inherited o₁, Amounts o₁.properties b (f inherited o₁)) :
    Amounts o.properties (a ++ b)
      (x >>= fun inherited => o.merge name inherited inlineBranch >>= f inherited) := by
  cases hx : x with
  | error e =>
    refine ⟨?_, ?_⟩
    · intro o' ho
      cases ho
    intro e' he
    cases he
    refine (h.clashes e hx).mono ?_
    rintro p (hp | hp)
    · cases hp
    · exact .inr (List.mem_append_left _ hp)
  | ok inherited =>
    exact (Amounts.merge (h.properties inherited hx)).bind fun o₁ _ => hf inherited o₁

end ObjectShape

theorem Document.Opens.unique {d : Document} {site child child' : Site}
    {index : Nat} {node : Node} (h : d.Opens site index node child)
    (h' : d.Opens site index node child') : child' = child := by
  cases h with
  | inline t => exact Document.opens_schema.1 h'
  | component leads definition => exact (Document.opens_ref leads definition).1 h'

section

variable [Libraries]

namespace Scope

variable {scope : Scope}

/-- What a schema itself declares, in order. -/
def Own (scope : Scope) (site : Site) (declarations : List ResolvedProperty) : Prop :=
  List.Forall₂ (fun e p => (scope.resolveProperty site.name site.pointer e.1 e.2).outcome = .ok p)
    site.schema.properties declarations

/-- What branches declare from an index on: for each in order what its own branches declare, and
then what it declares itself. -/
inductive Gathers (scope : Scope) : Site → Nat → List Node → List ResolvedProperty → Prop where
  | nil {site : Site} {index : Nat} : Gathers scope site index [] []
  | cons {site child : Site} {index : Nat} {node : Node} {rest : List Node}
      {inherited own more : List ResolvedProperty}
      (opens : scope.document.Opens site index node child)
      (branches : Gathers scope child 0 child.schema.allOf inherited)
      (declares : scope.Own child own)
      (further : Gathers scope site (index + 1) rest more) :
      Gathers scope site index (node :: rest) (inherited ++ own ++ more)

/-- The declarations of a schema: those of its branches in order, and its own. -/
def Declarations (scope : Scope) (site : Site) (declarations : List ResolvedProperty) : Prop :=
  ∃ inherited own, scope.Gathers site 0 site.schema.allOf inherited ∧ scope.Own site own ∧
    declarations = inherited ++ own

theorem Own.declaredBy {site : Site} {own : List ResolvedProperty} (h : scope.Own site own)
    {p : ResolvedProperty} (hp : p ∈ own) : scope.DeclaredBy site p := by
  unfold Own at h
  unfold DeclaredBy
  generalize site.schema.properties = declarations at h
  induction h with
  | nil => cases hp
  | @cons e q declarations own hq hrest ih =>
    obtain ⟨key, node⟩ := e
    rcases List.mem_cons.1 hp with rfl | hp
    · obtain ⟨-, rfl, -⟩ := resolveProperty_eq_ok hq
      exact ⟨node, List.mem_cons_self, hq⟩
    · obtain ⟨node', hm, hr⟩ := ih hp
      exact ⟨node', List.mem_cons_of_mem _ hm, hr⟩

theorem Own.unique {site : Site} {a b : List ResolvedProperty} (ha : scope.Own site a)
    (hb : scope.Own site b) : a = b := by
  refine Relator.RightUnique.forall₂ ?_ ha hb
  intro e p q hp hq
  rw [hp, Except.ok.injEq] at hq
  exact hq

theorem Gathers.unique {site : Site} {index : Nat} {nodes : List Node}
    {a b : List ResolvedProperty} (ha : scope.Gathers site index nodes a)
    (hb : scope.Gathers site index nodes b) : a = b := by
  induction ha generalizing b with
  | nil =>
    cases hb
    rfl
  | cons opens branches declares further ihb ihf =>
    cases hb with
    | cons opens' branches' declares' further' =>
      obtain rfl := opens.unique opens'
      rw [ihb branches', declares.unique declares', ihf further']

theorem Declarations.unique {site : Site} {a b : List ResolvedProperty}
    (ha : scope.Declarations site a) (hb : scope.Declarations site b) : a = b := by
  obtain ⟨inherited, own, hi, ho, rfl⟩ := ha
  obtain ⟨inherited', own', hi', ho', rfl⟩ := hb
  rw [hi.unique hi', ho.unique ho']

theorem Gathers.declaredIn {site : Site} {index : Nat} {nodes : List Node}
    {declarations : List ResolvedProperty} (h : scope.Gathers site index nodes declarations) :
    ∀ p ∈ declarations, ∃ child, scope.document.Among site index nodes child ∧
      scope.DeclaredIn child p := by
  induction h with
  | nil =>
    intro p hp
    cases hp
  | @cons site child index node rest inherited own more opens branches declares further ihb ihf =>
    intro p hp
    rcases List.mem_append.1 hp with hp | hp
    · refine ⟨child, Document.among_cons.2 (.inl opens), ?_⟩
      rcases List.mem_append.1 hp with hp | hp
      · obtain ⟨inner, hinner, hp⟩ := ihb p hp
        exact hp.of_branch hinner
      · exact ⟨child, .refl, declares.declaredBy hp⟩
    · obtain ⟨child, hchild, hp⟩ := ihf p hp
      exact ⟨child, Document.among_cons.2 (.inr hchild), hp⟩

theorem Declarations.declaredIn {site : Site} {declarations : List ResolvedProperty}
    (h : scope.Declarations site declarations) : ∀ p ∈ declarations, scope.DeclaredIn site p := by
  obtain ⟨inherited, own, hinherited, hown, rfl⟩ := h
  intro p hp
  rcases List.mem_append.1 hp with hp | hp
  · obtain ⟨child, hchild, hp⟩ := hinherited.declaredIn p hp
    exact hp.of_branch hchild
  · exact ⟨site, .refl, hown.declaredBy hp⟩

/-- All that a schema refers to is found: its referenced branches and the types of its
properties. -/
structure Found (scope : Scope) (part : Site) : Prop where
  branches : ∀ target, .ref target ∈ part.schema.allOf →
    ∃ name, scope.document.resolveRef part.name target = .ok name
  properties : ∀ e ∈ part.schema.properties,
    ∃ p, (scope.resolveProperty part.name part.pointer e.1 e.2).outcome = .ok p
  additional : ∀ a, part.schema.additional = some a →
    ∃ type, (scope.additionalType part.name part.pointer a).outcome = .ok type

/-- No part of a schema has itself among its parts, and all that its parts refer to is found. -/
def Flat (scope : Scope) (site : Site) : Prop :=
  ∀ part, ReflTransGen scope.document.Branch site part →
    scope.Found part ∧ ¬TransGen scope.document.Branch part part

theorem Flat.branch {site child : Site} (h : scope.Flat site)
    (hc : scope.document.Branch site child) : scope.Flat child :=
  fun part hp => h part (.head hc hp)

/-- A schema whose branches do not contain themselves does not contain itself. -/
theorem Flat.intro {site : Site} (hfound : scope.Found site)
    (h : ∀ child, scope.document.Branch site child → scope.Flat child) : scope.Flat site := by
  intro part hp
  rcases hp.cases_head with rfl | ⟨child, hchild, hp⟩
  · refine ⟨hfound, ?_⟩
    intro hcycle
    obtain ⟨child, hchild, hback⟩ := TransGen.head'_iff.1 hcycle
    exact (h child hchild _ hback).2 hcycle
  · exact h child hchild part hp

theorem Found.own {part : Site} (h : scope.Found part) : ∃ own, scope.Own part own := by
  unfold Own
  have hall := h.properties
  generalize part.schema.properties = declarations at hall
  induction declarations with
  | nil => exact ⟨[], .nil⟩
  | cons e rest ih =>
    obtain ⟨p, hp⟩ := hall e List.mem_cons_self
    obtain ⟨own, hown⟩ := ih fun e he => hall e (List.mem_cons_of_mem _ he)
    exact ⟨p :: own, .cons hp hown⟩

theorem declareOwn_outcome {name : String} {pointer : Pointer} {declarations : List (String × Node)}
    {own : List ResolvedProperty}
    (h : List.Forall₂ (fun e p => (scope.resolveProperty name pointer e.1 e.2).outcome = .ok p)
      declarations own) (o : ObjectShape) :
    (scope.declareOwn name pointer o declarations).outcome =
      own.foldlM (ObjectShape.declare name) o := by
  induction h generalizing o with
  | nil => rfl
  | @cons e p declarations own hp hrest ih =>
    simp only [declareOwn, Traced.outcome_bind, Traced.outcome_lift, hp, ih, List.foldlM_cons]
    rfl

theorem mergeOwn_amounts {part : Site} (h : scope.Found part) {own : List ResolvedProperty}
    (hown : scope.Own part own) (o : ObjectShape) :
    ObjectShape.Amounts o.properties own
      (scope.mergeOwn part.name part.pointer part.schema o).outcome := by
  have hdeclares := ObjectShape.foldlM_declare_amounts part.name o own
  rw [← declareOwn_outcome hown] at hdeclares
  have hrest : own = own ++ [] := (List.append_nil own).symm
  rw [hrest, mergeOwn, Traced.outcome_bind]
  refine hdeclares.bind fun o₁ _ => ?_
  cases hs : part.schema.additional with
  | none => exact ObjectShape.amounts_ok rfl
  | some a =>
    obtain ⟨type, ht⟩ := h.additional a hs
    simp only [Traced.outcome_bind, ht]
    exact ObjectShape.amounts_ok rfl

/-- The components on a path have the site among their parts. -/
def LeadsTo (scope : Scope) (path : MergePath) (site : Site) : Prop :=
  ∀ c ∈ path.components, ∃ t, scope.document.definition? c = some t ∧
    ReflTransGen scope.document.Branch (.ofComponent c t) site

omit [Libraries] in
theorem LeadsTo.append {path : MergePath} {site child : Site} (h : scope.LeadsTo path site)
    (hc : ReflTransGen scope.document.Branch site child) {pointer : Pointer} {name : String}
    (hp : pointer.steps = [] → ∃ t, scope.document.definition? pointer.component = some t ∧
      child = .ofComponent pointer.component t) :
    scope.LeadsTo (path ++ [(pointer, name)]) child := by
  intro c hm
  rw [MergePath.components_append] at hm
  rcases List.mem_append.1 hm with hm | hm
  · obtain ⟨t, ht, hreach⟩ := h c hm
    exact ⟨t, ht, hreach.trans hc⟩
  · simp only [MergePath.components, List.filterMap_cons, List.filterMap_nil] at hm
    cases hsteps : pointer.steps with
    | nil =>
      obtain ⟨t, ht, rfl⟩ := hp hsteps
      simp only [hsteps, List.isEmpty_nil, if_true, List.mem_singleton] at hm
      exact ⟨t, hm ▸ ht, hm ▸ .refl⟩
    | cons step rest =>
      simp [hsteps] at hm

/-- Merging amounts to the declarations of a schema, along the three functions that call each
other: these exist, and what is merged, or the error, comes of putting them one after another. -/
theorem merging_amounts (scope : Scope) :
    (∀ path name pointer s, ∀ inline, scope.LeadsTo path ⟨name, pointer, inline, s⟩ →
      scope.Flat ⟨name, pointer, inline, s⟩ → ∃ declarations,
        scope.Declarations ⟨name, pointer, inline, s⟩ declarations ∧
          ObjectShape.Amounts [] declarations (scope.mergeSchema path name pointer s).outcome) ∧
    (∀ path name pointer index branches o, ∀ inline s,
      scope.LeadsTo path ⟨name, pointer, inline, s⟩ → scope.Flat ⟨name, pointer, inline, s⟩ →
      (∀ node ∈ branches, node ∈ s.allOf) →
      (∀ child, scope.document.Among ⟨name, pointer, inline, s⟩ index branches child →
        scope.document.Branch ⟨name, pointer, inline, s⟩ child) → ∃ declarations,
        scope.Gathers ⟨name, pointer, inline, s⟩ index branches declarations ∧
          ObjectShape.Amounts o.properties declarations
            (scope.mergeBranches path name pointer index branches o).outcome) ∧
    ∀ path name, ∀ s, scope.document.definition? name = some s →
      (∀ c ∈ path.components, ∃ t, scope.document.definition? c = some t ∧
        TransGen scope.document.Branch (.ofComponent c t) (.ofComponent name s)) →
      scope.Flat (.ofComponent name s) → ∃ declarations,
        scope.Declarations (.ofComponent name s) declarations ∧
          ObjectShape.Amounts [] declarations (scope.mergeComponent path name).outcome := by
  apply mergeSchema.mutual_induct scope
  case case1 =>
    intro path name pointer s ih inline hpath hflat
    obtain ⟨inherited, hinherited, hbranches⟩ := ih inline s hpath hflat (fun _ hn => hn)
      fun _ hc => hc
    have hfound := (hflat _ .refl).1
    obtain ⟨own, hown⟩ := hfound.own
    refine ⟨inherited ++ own, ⟨inherited, own, hinherited, hown, rfl⟩, ?_⟩
    rw [mergeSchema, Traced.outcome_bind]
    exact hbranches.bind fun o _ => mergeOwn_amounts hfound hown o
  case case2 =>
    intro path name pointer index o inline s hpath hflat hnodes hbranch
    refine ⟨[], .nil, ?_⟩
    rw [mergeBranches]
    exact ObjectShape.amounts_ok rfl
  case case3 =>
    intro path name pointer index o target rest ihc ihr inline s hpath hflat hnodes hbranch
    obtain ⟨parent, hr⟩ := (hflat _ .refl).1.branches target (hnodes _ List.mem_cons_self)
    obtain ⟨t, ht, -⟩ := (Document.canonical_of_resolveRef hr).definition
    have hopens : scope.document.Opens ⟨name, pointer, inline, s⟩ index (.ref target)
        (.ofComponent parent t) := .component hr ht
    have hchild := hbranch _ (Document.among_cons.2 (.inl hopens))
    obtain ⟨first, ⟨inherited, own, hi, ho, rfl⟩, hfirst⟩ := ihc parent t ht (fun c hm => by
      obtain ⟨t', ht', hreach⟩ := hpath c hm
      exact ⟨t', ht', .tail' hreach hchild⟩) (hflat.branch hchild)
    -- what the branches that are left declare does not depend on what is merged before them
    have hfurther := fun o => ihr parent o inline s hpath hflat
      (fun node hn => hnodes node (List.mem_cons_of_mem _ hn))
      fun child hc => hbranch child (Document.among_cons.2 (.inr hc))
    obtain ⟨more, hmore, -⟩ := hfurther o
    refine ⟨_, .cons hopens hi ho hmore, ?_⟩
    simp only [mergeBranches, Traced.outcome_bind, Traced.outcome_lift, hr]
    refine hfirst.branch fun _ o₁ => ?_
    obtain ⟨more', hmore', hamounts⟩ := hfurther o₁
    exact hmore.unique hmore' ▸ hamounts
  case case4 =>
    intro path name pointer index o inner rest at_ ihs ihr inline s hpath hflat hnodes hbranch
    have hopens : scope.document.Opens ⟨name, pointer, inline, s⟩ index (.schema inner)
        ⟨name, at_, inline, inner⟩ := .inline inner
    have hchild := hbranch _ (Document.among_cons.2 (.inl hopens))
    have hpath' : scope.LeadsTo (path ++ [(at_, name)]) ⟨name, at_, inline, inner⟩ :=
      hpath.append (.single hchild) fun h => absurd h (steps_push_ne_nil _ _)
    obtain ⟨first, ⟨inherited, own, hi, ho, rfl⟩, hfirst⟩ := ihs inline hpath' (hflat.branch hchild)
    have hfurther := fun inherited o => ihr inherited o inline s hpath hflat
      (fun node hn => hnodes node (List.mem_cons_of_mem _ hn))
      fun child hc => hbranch child (Document.among_cons.2 (.inr hc))
    obtain ⟨more, hmore, -⟩ := hfurther o o
    refine ⟨_, .cons hopens hi ho hmore, ?_⟩
    simp only [mergeBranches, Traced.outcome_bind, Traced.outcome_lift]
    refine hfirst.branch fun merged o₁ => ?_
    obtain ⟨more', hmore', hamounts⟩ := hfurther merged o₁
    exact hmore.unique hmore' ▸ hamounts
  case case5 =>
    intro path name hm s hs hpath hflat
    obtain ⟨t, ht, hreach⟩ := hpath name hm
    rw [hs, Option.some.injEq] at ht
    exact absurd (ht ▸ hreach) (hflat _ .refl).2
  case case6 =>
    intro path name hm hn s hs
    rw [hn] at hs
    cases hs
  case case7 =>
    intro path name hm t ht ih s hs hpath hflat
    rw [ht, Option.some.injEq] at hs
    subst hs
    rw [mergeComponent_eq, if_neg hm, ht]
    refine ih false ?_ hflat
    refine LeadsTo.append (fun c hc => ?_) .refl fun _ => ⟨t, ht, rfl⟩
    obtain ⟨t', ht', hreach⟩ := hpath c hc
    exact ⟨t', ht', hreach.to_reflTransGen⟩

/-- The memories that are left as one schema of the document after another is outlined, whether
outlines are found or not. -/
inductive Reached (scope : Scope) : Memory → Prop where
  | empty : Reached scope .empty
  | outline {m : Memory} {name : String} {pointer : Pointer} {s : Schema}
      (before : Reached scope m) (placed : scope.placeAt pointer = some (.owner name s)) :
      Reached scope (scope.outlineM name pointer s m).1

theorem Reached.trusted {m : Memory} (h : scope.Reached m) : scope.Trusted [] m := by
  induction h with
  | empty => exact scope.trusted_empty
  | outline before placed ih =>
    obtain ⟨x, -, hr⟩ := outlineM_recalled ih placed
    exact hr.trusted

/-- Resolving a component leaves such a memory, also when it fails. -/
theorem Reached.resolveWithin {fuel : Nat} {r : Resolver} (hr : r.scope = scope)
    (h : scope.Reached r.toMemory) (name : String) :
    (Resolver.resolveWithin fuel r name).1.scope = scope ∧
      scope.Reached (Resolver.resolveWithin fuel r name).1.toMemory := by
  induction fuel generalizing r name with
  | zero => exact ⟨hr, h⟩
  | succ fuel ih =>
    rw [Resolver.resolveWithin, hr]
    cases scope.document.followAlias name name with
    | error e => exact ⟨hr, h⟩
    | ok target =>
      have hr₁ : (r.noteAlias name target).scope = scope := by rw [Resolver.scope_noteAlias, hr]
      have h₁ : scope.Reached (r.noteAlias name target).toMemory := by
        rw [Resolver.toMemory_noteAlias]
        exact h
      dsimp only
      generalize r.noteAlias name target = r₁ at hr₁ h₁
      cases hd : scope.document.definition target with
      | error e => exact ⟨hr₁, h₁⟩
      | ok s =>
        have h₂ := h₁.outline (placeAt_ofComponent (Document.definition_eq_ok_iff.1 hd))
        cases r₁.find? (.ofComponent target) with
        | some known => exact ⟨hr₁, h₁⟩
        | none =>
          simp only [Resolver.outline, hr₁]
          generalize scope.outlineM target (.ofComponent target) s r₁.toMemory = left at h₂
          obtain ⟨m, e | ⟨shape, inlines⟩ | other⟩ := left
          · exact ⟨rfl, h₂⟩
          · exact ⟨rfl, h₂⟩
          · have hother := @ih { r₁ with toMemory := m } hr₁ h₂ other
            simp only [hr₁] at hother ⊢
            generalize Resolver.resolveWithin fuel _ other = out at hother
            obtain ⟨r₃, e | source⟩ := out
            · exact hother
            · exact hother

/-- What becomes of declarations that are merged: an object if those of one key have one type, in
which each key stands where it is first declared and as it is last declared, or else an error that
reports two of them. -/
structure Flattens (declarations : List ResolvedProperty) (required : String → Prop)
    (x : Except Stop ObjectShape) : Prop where
  succeeds : (∃ o, x = .ok o) ↔
    ∀ p ∈ declarations, ∀ q ∈ declarations, p.key = q.key → p.type = q.type
  fails : ∀ reason, x = .error reason → ∃ e, Clashes (· ∈ declarations) e ∧ reason = .failed e
  keys : ∀ o, x = .ok o → o.keys = (declarations.map ResolvedProperty.key).eraseDups
  last : ∀ o, x = .ok o → ∀ key,
    o.property? key = declarations.reverse.find? fun p => p.key == key
  requires : ∀ o, x = .ok o → ∀ key, o.required.contains key ↔ required key

variable {name : String} {s : Schema} {m : Memory}

/-- A component that does not contain itself and whose parts refer to nothing that is missing has
one sequence of declarations, and merging it comes to these, whatever was merged before. -/
theorem mergeComponentM_flattens (hs : scope.document.definition? name = some s)
    (hflat : scope.Flat (.ofComponent name s)) (hm : scope.Reached m) :
    ∃ declarations, scope.Declarations (.ofComponent name s) declarations ∧
      (∀ other, scope.Declarations (.ofComponent name s) other → other = declarations) ∧
      Flattens declarations (scope.document.Requires (.ofComponent name s))
        (scope.mergeComponentM scope.depth name m).2 := by
  obtain ⟨declarations, hdeclarations, hamounts⟩ := (merging_amounts scope).2.2 [] name s hs
    (fun c hc => by cases hc) hflat
  have hdepth : scope.document.unseen (MergePath.components []) < scope.depth :=
    Nat.lt_succ_of_le (List.length_filter_le _ _)
  -- what is remembered is what is found without memory
  have hrecalled := ((merging_recalled scope).2.2 scope.depth name [] m hdepth hm.trusted).outcome
  have hclash : ∀ e, (scope.mergeComponent [] name).outcome = .error e →
      Clashes (· ∈ declarations) e :=
    fun e he => (hamounts.clashes e he).mono fun p hp => hp.resolve_left List.not_mem_nil
  have hcollects : ∀ o, (scope.mergeComponent [] name).outcome = .ok o →
      o.Collects (scope.DeclaredIn (.ofComponent name s))
        (scope.document.Requires (.ofComponent name s)) :=
    fun o ho => (merging_collects scope).2.2 _ _ _ ho s hs
  refine ⟨declarations, hdeclarations, fun other ho => ho.unique hdeclarations, ?_⟩
  rw [hrecalled]
  refine ⟨⟨?_, ?_⟩, ?_, ?_, ?_, ?_⟩
  · rintro ⟨o, ho⟩ p hp q hq
    have hmerged := hcollects o (ofExcept_eq_ok_iff.1 ho)
    exact hmerged.type_eq (hdeclarations.declaredIn p hp) (hdeclarations.declaredIn q hq)
  · intro hcoherent
    cases ho : (scope.mergeComponent [] name).outcome with
    | ok o => exact ⟨o, rfl⟩
    | error e =>
      obtain ⟨owner, p, q, hp, hq, hk, hne, -⟩ := hclash e ho
      exact absurd (hcoherent p hp q hq hk) hne
  · intro reason hreason
    obtain ⟨e, rfl, he⟩ := ofExcept_eq_error hreason
    exact ⟨e, hclash e he, rfl⟩
  · intro o ho
    rw [ObjectShape.keys, hamounts.properties o (ofExcept_eq_ok_iff.1 ho),
      ObjectShape.map_key_putAll]
  · intro o ho key
    rw [ObjectShape.property?, hamounts.properties o (ofExcept_eq_ok_iff.1 ho),
      ObjectShape.find?_putAll]
  · intro o ho
    exact (hcollects o (ofExcept_eq_ok_iff.1 ho)).requires

end Scope

/-- An object with properties that are all strings. -/
def textsObject (properties : List String) : Schema :=
  { Schema.empty with
    type := some (.single .object)
    required := properties
    properties := properties.map fun key =>
      (key, .schema { Schema.empty with type := some (.single .string) }) }

/-- A component with a referenced and an inline branch, which declares a property of the first one
again. -/
def redeclaredChild : Schema :=
  { textsObject ["id"] with
    allOf := [.ref "#/components/schemas/Base", .schema (textsObject ["size"])] }

def redeclaredBelow : Document :=
  ⟨"3.0.3", default,
    [("Base", .schema (textsObject ["id", "created"])), ("Child", .schema redeclaredChild)],
    by decide⟩

theorem textsObject_found {scope : Scope} {site : Site} {properties : List String}
    {allOf : List Node} (hs : site.schema = { textsObject properties with allOf })
    (hrefs : ∀ target, .ref target ∈ allOf →
      ∃ name, scope.document.resolveRef site.name target = .ok name) : scope.Found site where
  branches target hm := by
    rw [hs] at hm
    exact hrefs target hm
  properties e he := by
    rw [hs] at he
    obtain ⟨key, -, rfl⟩ := List.mem_map.1 he
    refine exists_eq_ok_of_isSome ?_
    rw [Scope.resolveProperty, Scope.typeNode_schema, Document.effective_schema]
    rfl
  additional a ha := by
    rw [hs] at ha
    cases ha

end

theorem redeclaredBelow_flat :
    Scope.Flat ⟨redeclaredBelow, []⟩ (.ofComponent "Child" redeclaredChild) := by
  have hbase : redeclaredBelow.resolveRef "Child" "#/components/schemas/Base" = .ok "Base" := by cbv
  have hleaf : ∀ (site : Site) (properties : List String), site.schema = textsObject properties →
      Scope.Flat ⟨redeclaredBelow, []⟩ site := by
    intro site properties hs
    refine .intro (textsObject_found hs fun target hm => by cases hm) fun child hc => ?_
    rw [Document.Branch, hs] at hc
    exact absurd hc Document.not_among_nil
  refine .intro (textsObject_found rfl ?_) fun child hc => ?_
  · intro target hm
    rcases List.mem_cons.1 hm with he | hm
    · cases he
      exact ⟨_, hbase⟩
    · cases List.mem_singleton.1 hm
  · rcases Document.among_cons.1 hc with hc | hc
    · rw [Document.opens_ref hbase rfl] at hc
      exact hleaf child ["id", "created"] (hc ▸ rfl)
    · rcases Document.among_cons.1 hc with hc | hc
      · rw [Document.opens_schema] at hc
        exact hleaf child ["size"] (hc ▸ rfl)
      · exact absurd hc Document.not_among_nil

theorem redeclaredBelow_flattens :
    let scope : Scope := ⟨redeclaredBelow, []⟩
    let r := ((Resolver.start scope).resolveComponent "Base").1
    redeclaredBelow.definition? "Child" = some redeclaredChild ∧
      scope.Flat (.ofComponent "Child" redeclaredChild) ∧
      scope.Reached r.toMemory ∧ ∃ declarations,
        scope.Declarations (.ofComponent "Child" redeclaredChild) declarations ∧
        (∀ other, scope.Declarations (.ofComponent "Child" redeclaredChild) other →
          other = declarations) ∧
        Scope.Flattens declarations
          (redeclaredBelow.Requires (.ofComponent "Child" redeclaredChild))
          (scope.mergeComponentM scope.depth "Child" r.toMemory).2 := by
  intro scope r
  have hr : scope.Reached r.toMemory :=
    (@Scope.Reached.resolveWithin _ scope _ (Resolver.start scope) rfl .empty "Base").2
  have hs : redeclaredBelow.definition? "Child" = some redeclaredChild := rfl
  exact ⟨hs, redeclaredBelow_flat, hr, Scope.mergeComponentM_flattens hs redeclaredBelow_flat hr⟩

end SchemaModel
