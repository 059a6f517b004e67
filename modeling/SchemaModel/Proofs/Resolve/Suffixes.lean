import SchemaModel.Proofs.Computed
import SchemaModel.Proofs.Resolve.Conflict

/-!
Which inline schemas are not called as their owners' names say. The plain name of a position is the
one that is made from the final name of its owner (`Scope.plainName?`). A schema has another name
only since an earlier position once had the same name as its own (`Resolver.Suffixed`). New names
are kept for ever, though the plain names inside a renamed schema change with it. So the earlier
position has the plain name in the end unless a schema around one of the two was renamed
(`Document.resolve_suffixes`).
-/

namespace SchemaModel

namespace Scope

variable {scope scope' : Scope} {pointer p q : Pointer} {name base : String} {s : Schema}

/-- The scope without a new name for a position. -/
def without (scope : Scope) (pointer : Pointer) : Scope :=
  { scope with renames := scope.renames.filter fun e => e.1 != pointer }

variable [Libraries]

/-- The name that an inline schema has if its position has no new name: the one that is made from
the name of its owner, distinct from all components. -/
def plainName? (scope : Scope) (pointer : Pointer) : Option String :=
  match (scope.without pointer).placeAt pointer with
  | some (.owner name _) => some name
  | _ => none

theorem plainName?_of_placeAt (h : (scope.without p).placeAt p = some (.owner name s)) :
    scope.plainName? p = some name := by
  rw [plainName?, h]

omit [Libraries] in
theorem lookup_without_self : (scope.without p).renames.lookup p = none := by
  rw [List.lookup_eq_none_iff]
  intro e he
  have hne := (List.mem_filter.1 he).2
  rw [bne_iff_ne] at hne ⊢
  exact hne.symm

omit [Libraries] in
theorem lookup_without (h : q ≠ p) :
    (scope.without p).renames.lookup q = scope.renames.lookup q := by
  unfold without
  induction scope.renames with
  | nil => rfl
  | cons e rest ih =>
    obtain ⟨x, name⟩ := e
    simp only at ih ⊢
    by_cases hx : x = p
    · have hq : (q == x) = false := by simpa [hx] using h
      rw [List.filter_cons_of_neg (by simpa using hx), ih, List.lookup_cons, hq]
    · rw [List.filter_cons_of_pos (by simpa using hx), List.lookup_cons, List.lookup_cons, ih]

/-- The plain name is decided by the new names around the position. -/
theorem plainName?_eq (hd : scope'.document = scope.document)
    (h : ∀ q : Pointer, q.encloses p → scope'.renames.lookup q = scope.renames.lookup q) :
    scope'.plainName? p = scope.plainName? p := by
  have hplace : (scope'.without p).placeAt p = (scope.without p).placeAt p := by
    refine placeAt_eq hd ?_
    rintro q (rfl | hq)
    · rw [lookup_without_self, lookup_without_self]
    · have hne : q ≠ p := by
        rintro rfl
        exact absurd (Pointer.length_lt_of_encloses hq) (Nat.lt_irrefl _)
      rw [lookup_without hne, lookup_without hne, h q hq]
  rw [plainName?, plainName?, hplace]

omit [Libraries] in
/-- An inline schema that is entered has the name made from the base, in every scope. -/
theorem enter_eq_owner {node : Node} (h : scope.enter pointer base node = .owner name s)
    (scope' : Scope) :
    scope'.enter pointer base node = .owner (scope'.inlineName base pointer) s := by
  cases node with
  | ref path => cases h
  | schema t =>
    by_cases hn : t.isNamed
    · rw [enter_of_named _ _ _ hn, Place.owner.injEq] at h
      rw [enter_of_named _ _ _ hn, h.2]
    · rw [enter_of_not_named _ _ _ (by simpa using hn)] at h
      cases h

/-- A schema one step inside has the name of what is around it, or one that is made from a base. -/
theorem childPlace_eq_owner {place : Place} {step : Step}
    (h : scope.childPlace pointer place step = some (.owner name s)) :
    (∀ scope' : Scope, scope'.childPlace pointer place step = some (.owner name s)) ∨
      ∃ base, ∀ scope' : Scope, scope'.childPlace pointer place step =
        some (.owner (scope'.inlineName base pointer) s) := by
  have henter : ∀ {base : String} {node? : Option Node},
      node?.map (scope.enter pointer base) = some (.owner name s) →
        ∀ scope' : Scope, node?.map (scope'.enter pointer base) =
          some (.owner (scope'.inlineName base pointer) s) := by
    intro base node? h scope'
    obtain ⟨node, rfl, hnode⟩ := Option.map_eq_some_iff.1 h
    exact congrArg some (enter_eq_owner hnode scope')
  cases place with
  | owner outer t =>
    cases step with
    | property key => exact .inr ⟨_, henter h⟩
    | items => exact .inr ⟨_, henter h⟩
    | additional =>
      simp only [childPlace] at h ⊢
      split at h
      · exact .inr ⟨_, fun scope' => congrArg some (enter_eq_owner (Option.some.inj h) scope')⟩
      · cases h
    | allOf index => exact .inl fun _ => h
    | oneOf index => exact .inl fun _ => h
    | anyOf index => exact .inl fun _ => h
  | value outer node =>
    cases node with
    | ref path => cases h
    | schema t =>
      cases step with
      | items => exact .inr ⟨_, henter h⟩
      | additional =>
        simp only [childPlace] at h ⊢
        split at h
        · exact .inr ⟨_, fun scope' => congrArg some (enter_eq_owner (Option.some.inj h) scope')⟩
        · cases h
      | oneOf index => exact .inr ⟨_, henter h⟩
      | anyOf index => exact .inr ⟨_, henter h⟩
      | property key => cases h
      | allOf index => cases h

theorem placeAt_without_push (outer : Pointer) (step : Step) :
    (scope.without (outer.push step)).placeAt outer = scope.placeAt outer := by
  refine placeAt_eq rfl fun q hq => lookup_without ?_
  -- a position is neither what is around it nor around that
  have hpush := Pointer.length_lt_of_encloses (Pointer.encloses_push outer step)
  rintro rfl
  rcases hq with hq | hq
  · rw [hq] at hpush
    exact Nat.lt_irrefl _ hpush
  · have hlt := Pointer.length_lt_of_encloses hq
    omega

/-- A schema has its plain name, or the new one that was given to its position; then the plain one
is made distinct from all components. -/
theorem plainName?_of_owner (h : scope.placeAt p = some (.owner name s)) :
    scope.plainName? p = some name ∨ (scope.renames.lookup p = some name ∧
      ∃ base, scope.plainName? p = some (Naming.fresh base scope.document.names)) := by
  rcases p.eq_ofComponent_or_push with hp | ⟨outer, step, rfl⟩
  · rw [hp] at h ⊢
    exact .inl (plainName?_of_placeAt h)
  rw [placeAt_push] at h
  obtain ⟨place, hplace, hchild⟩ := Option.bind_eq_some_iff.1 h
  have hwithout : (scope.without (outer.push step)).placeAt (outer.push step) =
      (scope.without (outer.push step)).childPlace (outer.push step) place step := by
    rw [placeAt_push, placeAt_without_push, hplace, Option.bind_some]
  rcases childPlace_eq_owner hchild with hsame | ⟨base, hmade⟩
  · exact .inl (plainName?_of_placeAt (hwithout.trans (hsame _)))
  · have hplain := plainName?_of_placeAt (hwithout.trans (hmade _))
    rw [inlineName, lookup_without_self] at hplain
    have hname := hmade scope
    rw [hchild, Option.some.injEq, Place.owner.injEq, inlineName] at hname
    cases hl : scope.renames.lookup (outer.push step) with
    | none =>
      rw [hl] at hname
      exact .inl (hname.1 ▸ hplain)
    | some new =>
      rw [hl] at hname
      exact .inr ⟨congrArg some hname.1.symm, base, hplain⟩

end Scope

section

variable [Libraries]

namespace Resolver

variable {scope : Scope} {d : Document} {order : List String}
  {renames before : List (Pointer × String)} {r : Resolver} {name b : String} {p q : Pointer}

/-- A new name was given in one of the passes. -/
theorem Rounds.given (h : Rounds d order renames) {e : Pointer × String} (he : e ∈ renames) :
    ∃ before r, Rounds d order before ∧ pass ⟨d, before⟩ order = .ok r ∧ e ∈ r.inlineRenames := by
  induction h with
  | start => cases he
  | next before resolves collides ih =>
    rcases List.mem_append.1 he with he | he
    · exact ⟨_, _, before, resolves, he⟩
    · exact ih he

/-- The position was given the name in a pass in which an earlier one had the same name as it. -/
def Suffixed (d : Document) (order : List String) (p : Pointer) (name : String) : Prop :=
  ∃ before r old q, Rounds d order before ∧ pass ⟨d, before⟩ order = .ok r ∧
    (p, name) ∈ r.inlineRenames ∧ r.Called old p ∧ r.Called old q ∧ q.text < p.text

/-- A schema was renamed that is around the position, or around an earlier one that had the name in
some pass. -/
def Moves (d : Document) (order : List String) (renames : List (Pointer × String)) (b : String)
    (p : Pointer) : Prop :=
  ∃ x ∈ renames.map Prod.fst, x.encloses p ∨ ∃ before r q, Rounds d order before ∧
    pass ⟨d, before⟩ order = .ok r ∧ r.Called b q ∧ q.text < p.text ∧ x.encloses q

omit [Libraries] in
/-- Among the positions with a name there is a first one. -/
theorem Called.exists_first (h : r.Called b q) : ∃ first, r.Called b first ∧
    (first = q ∨ first.text < q.text) ∧ ∀ x, r.Called b x → ¬x.text < first.text := by
  have hmem : ∀ x, x ∈ (r.resolved.filter fun e => e.2.name == b).map Prod.fst ↔ r.Called b x := by
    intro x
    simp [Called]
  obtain ⟨first, hfirst, hleast⟩ :=
    Resolver.exists_first (List.ne_nil_of_mem ((hmem q).2 h))
  refine ⟨first, (hmem first).1 hfirst, ?_, fun x hx => hleast x ((hmem x).2 hx)⟩
  by_cases hlt : first.text < q.text
  · exact .inr hlt
  · have hle := hleast q ((hmem q).2 h)
    have htext := String.le_antisymm (String.not_lt.1 hle) (String.not_lt.1 hlt)
    exact .inl (Pointer.text_injective htext)

/-- The first position with a name is not renamed. -/
theorem Called.not_renamed (hr : Complete scope order r) (h : r.Called b p)
    (hfirst : ∀ x, r.Called b x → ¬x.text < p.text) : p ∉ r.renamed := by
  intro hp
  obtain ⟨⟨name, hcollision⟩, -⟩ := mem_renamed_iff.1 hp
  obtain ⟨hname, q, hq, hlt⟩ := mem_collisions_iff.1 hcollision
  rw [hname.unique hr h] at hq
  exact hfirst q hq hlt

/-- A position around which nothing is ever renamed has its plain name in the first pass. -/
theorem Complete.called_plainName (hr : Complete ⟨d, []⟩ order r) {site : Site}
    (hv : Scope.Visits ⟨d, renames⟩ order site)
    (hplain : Scope.plainName? ⟨d, renames⟩ site.pointer = some b)
    (hstays : ∀ x ∈ renames.map Prod.fst, ¬x.encloses site.pointer) : r.Called b site.pointer := by
  have hd : (Scope.mk d renames).document = (Scope.mk d []).document := rfl
  obtain ⟨first, hfirst, hp, -⟩ := hv.twin hd fun _ hv => hr.resolvable.outline hv
  have hsame : Scope.plainName? ⟨d, renames⟩ site.pointer =
      Scope.plainName? ⟨d, []⟩ site.pointer := by
    refine Scope.plainName?_eq hd fun q hq => ?_
    rw [List.lookup_nil, List.lookup_eq_none_iff]
    intro e he
    rw [bne_iff_ne]
    rintro rfl
    exact hstays _ (List.mem_map.2 ⟨e, he, rfl⟩) hq
  have hcalled := hr.called hfirst
  rcases Scope.plainName?_of_owner hfirst.grounded.place with hname | ⟨hl, -⟩
  · rw [hp, ← hsame, hplain, Option.some.injEq] at hname
    rwa [hp, ← hname] at hcalled
  · cases hl

/-- Unless a schema around it or around an earlier one was renamed, a position with the plain name,
or an earlier one, has this name in all passes: the first that has it keeps it. -/
theorem Rounds.held (hlast : Rounds d order renames)
    (hend : ∀ r, pass ⟨d, renames⟩ order = .ok r → r.inlineRenames = []) {site : Site}
    (hmoves : ¬Moves d order renames b site.pointer)
    (hv : Scope.Visits ⟨d, renames⟩ order site)
    (hplain : Scope.plainName? ⟨d, renames⟩ site.pointer = some b)
    (hbefore : Rounds d order before) (h : pass ⟨d, before⟩ order = .ok r) :
    ∃ q, r.Called b q ∧ (q = site.pointer ∨ q.text < site.pointer.text) := by
  have hstays : ∀ x ∈ renames.map Prod.fst, ¬x.encloses site.pointer :=
    fun x hx he => hmoves ⟨x, hx, .inl he⟩
  induction hbefore generalizing r with
  | start => exact ⟨_, (pass_complete h).called_plainName hv hplain hstays, .inl rfl⟩
  | @next earlier r₀ before resolves collides ih =>
    have hr₀ := pass_complete resolves
    obtain ⟨q, hq, hqp⟩ := ih resolves
    obtain ⟨first, hcalled, hfq, hleast⟩ := hq.exists_first
    have hfirst : first = site.pointer ∨ first.text < site.pointer.text := by
      rcases hfq with rfl | hfq
      · exact hqp
      · rcases hqp with rfl | hqp
        · exact .inr hfq
        · exact .inr (String.lt_trans hfq hqp)
    refine ⟨first, hcalled.after hr₀ (pass_complete h) ?_, hfirst⟩
    intro x hx
    have hmem : x ∈ renames.map Prod.fst := by
      obtain ⟨e, he, rfl⟩ := List.mem_map.1 hx
      have hsuffix := hlast.suffix hend (before.next resolves collides)
      exact List.mem_map.2 ⟨e, hsuffix.subset (List.mem_append_left _ he), rfl⟩
    constructor
    · rintro rfl
      exact hcalled.not_renamed hr₀ hleast hx
    · intro he
      rcases hfirst with rfl | hlt
      · exact hstays x hmem he
      · exact hmoves ⟨x, hmem, .inr ⟨_, _, first, before, resolves, hcalled, hlt, he⟩⟩

/-- A name that some position has in each pass is never given to another one. -/
theorem Rounds.not_given (hrounds : Rounds d order renames) (hheld : ∀ before r,
    Rounds d order before → pass ⟨d, before⟩ order = .ok r → ∃ q, r.Called b q) :
    (p, b) ∉ renames := by
  intro hm
  obtain ⟨before, r, hbefore, hr, he⟩ := hrounds.given hm
  obtain ⟨q, hq⟩ := hheld before r hbefore hr
  exact hq.ne_of_mem_renames he rfl

/-- A new name was given to a position since an earlier one had the same name as it. -/
theorem Rounds.suffixed (hrounds : Rounds d order renames) (hm : (p, name) ∈ renames) :
    Suffixed d order p name := by
  obtain ⟨before, r, hbefore, hr, he⟩ := hrounds.given hm
  have hp : p ∈ r.renamed := List.mem_map.2 ⟨_, he, rfl⟩
  obtain ⟨⟨old, hcollision⟩, -⟩ := mem_renamed_iff.1 hp
  obtain ⟨hcalled, q, hq, hlt⟩ := mem_collisions_iff.1 hcollision
  exact ⟨before, r, old, q, hbefore, hr, he, hcalled, hq, hlt⟩

/-- The graph has an earlier inline schema of the plain name of one that lost it, if nothing
moves. -/
theorem Rounds.kept (hrounds : Rounds d order renames) (hp : pass ⟨d, renames⟩ order = .ok r)
    (hn : r.inlineRenames = []) {site : Site} (hv : Scope.Visits ⟨d, renames⟩ order site)
    (hplain : Scope.plainName? ⟨d, renames⟩ site.pointer = some b) (hb : b ∉ d.names)
    (hne : site.name ≠ b) (hmoves : ¬Moves d order renames b site.pointer) :
    ∃ t, r.toGraph.schemas.find? b = some t ∧ t.inline ∧ t.pointer.text < site.pointer.text ∧
      Scope.plainName? ⟨d, renames⟩ t.pointer = some b := by
  have hr := pass_complete hp
  have hend : ∀ r', pass ⟨d, renames⟩ order = .ok r' → r'.inlineRenames = [] := by
    intro r' hr'
    rw [hp, Except.ok.injEq] at hr'
    rw [← hr', hn]
  have hheld := fun (before : List (Pointer × String)) (r : Resolver)
    (hbefore : Rounds d order before) (h : pass ⟨d, before⟩ order = .ok r) =>
    hrounds.held hend hmoves hv hplain hbefore h
  obtain ⟨q, ⟨t, ht, rfl⟩, hq⟩ := hheld renames r hrounds hp
  obtain ⟨site', shape, hv', hshape, he⟩ := hr.mem_resolved_iff.1 ht
  rw [Prod.mk.injEq] at he
  obtain ⟨rfl, rfl⟩ := he
  refine ⟨_, (hr.find?_toGraph hn).2 ⟨site', shape, hv', hshape, rfl, rfl⟩, ?_, ?_, ?_⟩
  · by_contra hinline
    exact hb (hv'.grounded.canonical (by simpa [Site.resolved] using hinline)).mem_names
  · rcases hq with hq | hq
    · exact absurd (congrArg Site.name (hv.grounded.site_eq hv'.grounded hq.symm)) hne
    · exact hq
  · rcases Scope.plainName?_of_owner hv'.grounded.place with hplain' | ⟨hl, -⟩
    · exact hplain'
    · refine absurd (mem_of_lookup hl) (hrounds.not_given fun before r hbefore h => ?_)
      obtain ⟨q, hq, -⟩ := hheld before r hbefore h
      exact ⟨q, hq⟩

end Resolver

/-- An inline schema of a graph has its plain name, or it was given another one since an earlier
position had the same name as its own. In the second case an earlier inline schema has and keeps the
plain name, unless a schema around the position or around an earlier one of that name was
renamed. -/
theorem Document.resolve_suffixes {d : Document} {order : List String} {g : Graph}
    (h : d.resolve order = .ok g) : ∃ renames r, Resolver.Rounds d order renames ∧
      Resolver.pass ⟨d, renames⟩ order = .ok r ∧ r.inlineRenames = [] ∧ g = r.toGraph ∧
      ∀ s ∈ g.schemas.values, s.inline →
        ∃ b, Scope.plainName? ⟨d, renames⟩ s.pointer = some b ∧ (s.name ≠ b →
          Resolver.Suffixed d order s.pointer s.name ∧
            (Resolver.Moves d order renames b s.pointer ∨
              ∃ t, g.schemas.find? b = some t ∧ t.inline ∧ t.pointer.text < s.pointer.text ∧
                Scope.plainName? ⟨d, renames⟩ t.pointer = some b)) := by
  obtain ⟨r, ⟨renames, hrounds, hp, hn⟩, rfl⟩ := lastPass_of_resolve h
  refine ⟨renames, r, hrounds, hp, hn, rfl, ?_⟩
  intro s hs hinline
  obtain ⟨name, hfind⟩ := NameMap.mem_values_iff.1 hs
  obtain ⟨site, shape, hv, -, rfl, rfl⟩ :=
    ((Resolver.pass_complete hp).find?_toGraph hn).1 hfind
  rcases Scope.plainName?_of_owner hv.grounded.place with hplain | ⟨hl, base, hplain⟩
  · exact ⟨_, hplain, fun hne => absurd rfl hne⟩
  refine ⟨_, hplain, fun hne => ⟨hrounds.suffixed (mem_of_lookup hl), or_iff_not_imp_left.2 ?_⟩⟩
  exact fun hmoves =>
    hrounds.kept hp hn hv hplain (Naming.fresh_notMem _ _) hne hmoves

end

/-- Whatever was renamed before, the inner object of `AB` has the plain name of that of `A`. -/
theorem sharedName_plainName? (renames : List (Pointer × String)) :
    Scope.plainName? ⟨sharedName, renames⟩ ((Pointer.ofComponent "AB").push (.property "c")) =
      some "ABC" := by
  let inner : Schema := { Schema.empty with
    type := some (.single .object)
    properties := [("k", .schema { Schema.empty with type := some (.single .string) })] }
  have hname : Scope.inlineName (Scope.without ⟨sharedName, renames⟩
      ((Pointer.ofComponent "AB").push (.property "c"))) (Naming.inlineName "AB" "c")
      ((Pointer.ofComponent "AB").push (.property "c")) = "ABC" := by
    rw [Scope.inlineName, Scope.lookup_without_self]
    cbv
  refine Scope.plainName?_of_placeAt (s := inner) ?_
  rw [Scope.placeAt_push, ← hname]
  rfl

/-- The inner object of `A` comes first and keeps the name. -/
theorem sharedName_inner : ∃ g s t, sharedName.resolve ["AB", "A"] = .ok g ∧
    g.schemas.find? "ABC2" = some s ∧ s.name = "ABC2" ∧ s.inline ∧
    s.pointer = (Pointer.ofComponent "AB").push (.property "c") ∧
    g.schemas.find? "ABC" = some t ∧ t.inline ∧
    t.pointer = (Pointer.ofComponent "A").push (.property "bC") := by
  have hrun : ((sharedName.resolve ["AB", "A"]).toOption.bind fun g =>
      (g.schemas.find? "ABC2").bind fun s => (g.schemas.find? "ABC").map fun t =>
        ((s.name, s.inline, s.pointer), t.inline, t.pointer)) =
      some (("ABC2", true, (Pointer.ofComponent "AB").push (.property "c")), true,
        (Pointer.ofComponent "A").push (.property "bC")) := by cbv
  obtain ⟨g, hg, hrun⟩ := toOption_bind_eq_some_iff.1 hrun
  obtain ⟨s, hs, hrun⟩ := Option.bind_eq_some_iff.1 hrun
  obtain ⟨t, ht, hrun⟩ := Option.map_eq_some_iff.1 hrun
  simp only [Prod.mk.injEq] at hrun
  obtain ⟨⟨hname, hinline, hpointer⟩, htinline, htpointer⟩ := hrun
  exact ⟨g, s, t, hg, hs, hname, hinline, hpointer, ht, htinline, htpointer⟩

theorem resolve_suffixes_shared_name : ∃ g, sharedName.resolve ["AB", "A"] = .ok g ∧
    (∃ renames r, Resolver.Rounds sharedName ["AB", "A"] renames ∧
      Resolver.pass ⟨sharedName, renames⟩ ["AB", "A"] = .ok r ∧ r.inlineRenames = [] ∧
      g = r.toGraph ∧ ∀ s ∈ g.schemas.values, s.inline →
        ∃ b, Scope.plainName? ⟨sharedName, renames⟩ s.pointer = some b ∧ (s.name ≠ b →
          Resolver.Suffixed sharedName ["AB", "A"] s.pointer s.name ∧
            (Resolver.Moves sharedName ["AB", "A"] renames b s.pointer ∨
              ∃ t, g.schemas.find? b = some t ∧ t.inline ∧ t.pointer.text < s.pointer.text ∧
                Scope.plainName? ⟨sharedName, renames⟩ t.pointer = some b))) ∧
    ∃ s t, g.schemas.find? "ABC2" = some s ∧ s.inline ∧
      s.pointer = (Pointer.ofComponent "AB").push (.property "c") ∧
      Resolver.Suffixed sharedName ["AB", "A"] s.pointer "ABC2" ∧
      g.schemas.find? "ABC" = some t ∧ t.inline ∧
      t.pointer = (Pointer.ofComponent "A").push (.property "bC") := by
  obtain ⟨g, s, t, hg, hs, hname, hinline, hpointer, ht, htinline, htpointer⟩ := sharedName_inner
  have hall := Document.resolve_suffixes hg
  refine ⟨g, hg, hall, s, t, hs, hinline, hpointer, ?_, ht, htinline, htpointer⟩
  obtain ⟨renames, r, -, -, -, -, hnames⟩ := hall
  obtain ⟨b, hplain, hsuffixed⟩ := hnames s (NameMap.mem_values_iff.2 ⟨"ABC2", hs⟩) hinline
  rw [hpointer, sharedName_plainName?, Option.some.injEq] at hplain
  rw [hname] at hsuffixed
  exact (hsuffixed (by rw [← hplain]; decide)).1

theorem Resolver.inlineRenames_eq_nil {r : Resolver}
    (hnames : (r.resolved.map fun e => e.2.name).Nodup) : r.inlineRenames = [] := by
  have hnone : r.collisions = [] := by
    refine List.eq_nil_iff_forall_not_mem.2 ?_
    rintro ⟨name, p⟩ hm
    obtain ⟨⟨s, hs, hname⟩, q, ⟨t, ht, rfl⟩, hlt⟩ := mem_collisions_iff.1 hm
    have he := List.inj_on_of_nodup_map hnames hs ht hname
    rw [(Prod.mk.injEq _ _ _ _).mp he |>.1] at hlt
    exact String.lt_irrefl _ hlt
  rw [inlineRenames, hnone]
  rfl

/-- An inline object that shares its name with one inside an object which is itself renamed, in the
same pass. -/
def movedHolder : Document :=
  let object (properties : List (String × Node)) : Node :=
    .schema { Schema.empty with type := some (.single .object), properties }
  let leaf := object [("k", .schema { Schema.empty with type := some (.single .string) })]
  ⟨"3.0.3", default,
    [("A", object [("bC", leaf)]), ("AB", object [("c", object [("d", leaf)]), ("cD", leaf)])],
    by decide⟩

/-- The new names that the first pass gives. -/
def movedHolderRenames : List (Pointer × String) :=
  [(⟨"AB", [.property "c"]⟩, "ABC2"), (⟨"AB", [.property "cD"]⟩, "ABCD2")]

theorem movedHolder_first_pass :
    ∃ r, Resolver.pass ⟨movedHolder, []⟩ ["A", "AB"] = .ok r ∧
      r.inlineRenames = movedHolderRenames := by
  have hrun : (Resolver.pass ⟨movedHolder, []⟩ ["A", "AB"]).toOption.map Resolver.inlineRenames =
      some movedHolderRenames := by cbv
  exact toOption_map_eq_some_iff.1 hrun

theorem movedHolder_last_pass :
    ∃ r, Resolver.pass ⟨movedHolder, movedHolderRenames⟩ ["A", "AB"] = .ok r ∧
      r.resolved.map (fun e => e.2.name) = ["A", "AB", "ABC", "ABC2", "ABCD2", "ABC2D"] ∧
      ∃ s, (⟨"AB", [.property "cD"]⟩, s) ∈ r.resolved ∧ s.inline ∧ s.name = "ABCD2" := by
  have hrun : (Resolver.pass ⟨movedHolder, movedHolderRenames⟩ ["A", "AB"]).toOption.map
      (fun r => (r.resolved.map (fun e => e.2.name),
        r.resolved[4]?.map fun e => (e.1, e.2.inline, e.2.name))) =
      some (["A", "AB", "ABC", "ABC2", "ABCD2", "ABC2D"],
        some (⟨"AB", [.property "cD"]⟩, true, "ABCD2")) := by cbv
  obtain ⟨r, hr, hrun⟩ := toOption_map_eq_some_iff.1 hrun
  obtain ⟨hnames, hfourth⟩ := (Prod.mk.injEq _ _ _ _).mp hrun
  obtain ⟨⟨p, s⟩, hs, he⟩ := Option.map_eq_some_iff.1 hfourth
  simp only [Prod.mk.injEq] at he
  obtain ⟨rfl, hinline, hname⟩ := he
  exact ⟨r, hr, hnames, s, List.mem_of_getElem? hs, hinline, hname⟩

/-- One object gives up its plain name, which then none has. -/
theorem movedHolder_not_kept : ∃ g r, movedHolder.resolve ["A", "AB"] = .ok g ∧
    Resolver.Rounds movedHolder ["A", "AB"] movedHolderRenames ∧
    Resolver.pass ⟨movedHolder, movedHolderRenames⟩ ["A", "AB"] = .ok r ∧ r.inlineRenames = [] ∧
    g = r.toGraph ∧ ∃ s ∈ g.schemas.values, s.inline ∧ s.name = "ABCD2" ∧
      Scope.plainName? ⟨movedHolder, movedHolderRenames⟩ s.pointer = some "ABCD" ∧
      ∀ t ∈ g.schemas.values, t.name ≠ "ABCD" := by
  obtain ⟨first, hfirst, hrenames⟩ := movedHolder_first_pass
  obtain ⟨r, hlast, hnames, s, hs, hinline, hname⟩ := movedHolder_last_pass
  have hr := Resolver.pass_complete hlast
  have hn : r.inlineRenames = [] := Resolver.inlineRenames_eq_nil (by rw [hnames]; decide)
  have hresolve : movedHolder.resolve ["A", "AB"] = .ok r.toGraph := by
    rw [Document.resolve, Resolver.passes, hfirst]
    simp only [hrenames, movedHolderRenames]
    change Resolver.passes _ ⟨movedHolder, movedHolderRenames⟩ _ = _
    rw [Resolver.passes, hlast]
    simp only [hn]
  have hrounds : Resolver.Rounds movedHolder ["A", "AB"] movedHolderRenames := by
    have hnext := Resolver.Rounds.next .start hfirst (by simp [hrenames, movedHolderRenames])
    rwa [hrenames] at hnext
  have hpointer := hr.pointer_eq hs
  have hplain : Scope.plainName? ⟨movedHolder, movedHolderRenames⟩ ⟨"AB", [.property "cD"]⟩ =
      some "ABCD" := by cbv
  refine ⟨r.toGraph, r, hresolve, hrounds, hlast, hn, rfl, s, ?_, hinline, hname, ?_, ?_⟩
  · exact NameMap.mem_values_iff.2 ⟨_, (hr.entry_iff hn).2 ⟨rfl, hpointer ▸ hs⟩⟩
  · rw [hpointer, hplain]
  · intro t ht hplain
    obtain ⟨name, hf⟩ := NameMap.mem_values_iff.1 ht
    have hmem := List.mem_map_of_mem (f := fun e => e.2.name) ((hr.entry_iff hn).1 hf).2
    rw [hnames] at hmem
    simp [hplain] at hmem

end SchemaModel
