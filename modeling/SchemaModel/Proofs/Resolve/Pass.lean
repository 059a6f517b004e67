import SchemaModel.Proofs.Resolve.Contents
import SchemaModel.Proofs.Resolve.Position
import SchemaModel.Proofs.Resolve.Run
import SchemaModel.Resolve.Graph

/-!
A pass is a run, so what it ends with is determined by the components it starts from: it succeeds
exactly if every name can be followed and every visited site has a shape (`pass_succeeds_iff`), and
then it holds these shapes and nothing else (`pass_complete`). A pass in other names of the same
document may fail where another one succeeds, but only since it finds no outline (`pass_error`).
-/

namespace SchemaModel

namespace Resolver

variable {scope : Scope} {order : List String} {r r' : Resolver}

theorem knows_of_find? {pointer : Pointer} {s : Resolved} (h : r.find? pointer = some s) :
    (pointer, s) ∈ r.resolved := mem_of_lookup h

theorem knows_of_isSome_find? {pointer : Pointer} (h : (r.find? pointer).isSome) :
    r.Knows pointer := by
  obtain ⟨s, hs⟩ := Option.isSome_iff_exists.1 h
  exact ⟨s, knows_of_find? hs⟩

theorem isSome_find?_of_knows {pointer : Pointer} (h : r.Knows pointer) :
    (r.find? pointer).isSome := by
  obtain ⟨s, hs⟩ := h
  unfold find?
  rw [List.lookup_isSome_iff]
  exact ⟨_, hs, by simp⟩

variable [Libraries]

/-- A name with which resolving may start: one that is asked for, or a component met on the way. -/
def Met (scope : Scope) (order : List String) (name : String) : Prop :=
  name ∈ order ∨ (scope.document.Canonical name ∧
    ∀ s, scope.document.definition? name = some s → scope.Visits order (.ofComponent name s))

theorem Met.visits {name target : String} {s : Schema} (h : Met scope order name)
    (ht : scope.document.followAlias name name = .ok target)
    (hs : scope.document.definition? target = some s) :
    scope.Visits order (.ofComponent target s) := by
  rcases h with h | ⟨hc, hv⟩
  · exact .component h ht hs
  · rw [hc.followAlias, Except.ok.injEq] at ht
    subst ht
    exact hv s hs

/-- Noting the alias of a name is a step, or nothing happens at all. -/
theorem Met.noteAlias_run {name target : String} (h : Met scope order name)
    (ht : scope.document.followAlias name name = .ok target) :
    Run scope order r (r.noteAlias name target) := by
  rcases h with h | ⟨hc, -⟩
  · exact .single (.follow h ht)
  · rw [hc.followAlias, Except.ok.injEq] at ht
    subst ht
    rw [noteAlias_self]
    exact .refl

theorem resolveWithin_of_error {fuel : Nat} {name : String} {e : ModelError} (h : Ready scope r)
    (ht : scope.document.followAlias name name = .error e) :
    resolveWithin (fuel + 1) r name = (r, .error (.failed e)) := by
  rw [resolveWithin, h.scope_eq]
  simp only [ht]

theorem resolveWithin_of_known {fuel : Nat} {name target : String} {s : Schema} {found : Resolved}
    (h : Ready scope r) (ht : scope.document.followAlias name name = .ok target)
    (hd : scope.document.definition? target = some s)
    (hf : r.find? (.ofComponent target) = some found) :
    resolveWithin (fuel + 1) r name = (r.noteAlias name target, .ok found) := by
  have hf₁ : (r.noteAlias name target).find? (.ofComponent target) = some found := by
    rw [find?, resolved_noteAlias]
    exact hf
  rw [resolveWithin, h.scope_eq]
  simp only [ht, Document.definition_eq_ok_iff.2 hd, hf₁]

/-- What is done for a component that is not known yet, as its own outline says. -/
theorem resolveWithin_of_unknown {fuel : Nat} {name target : String} {s : Schema}
    (h : Ready scope r) (ht : scope.document.followAlias name name = .ok target)
    (hd : scope.document.definition? target = some s)
    (hf : r.find? (.ofComponent target) = none) :
    ∃ r₁ merged, r₁ = { (r.noteAlias name target).note
          (scope.outlineAt (.ofComponent target s)).warnings with merged } ∧
      scope.Trusted [] r₁.toMemory ∧
      resolveWithin (fuel + 1) r name =
        match (scope.outlineAt (.ofComponent target s)).outcome with
        | .error e => (r₁, .error (.failed e))
        | .ok (.shape shape inlines) =>
          (r₁.record ((Site.ofComponent target s).resolved shape) inlines,
            .ok ((Site.ofComponent target s).resolved shape))
        | .ok (.sameAs other) =>
          match resolveWithin fuel r₁ other with
          | (r, .error e) => (r, .error e)
          | (r, .ok source) =>
            (r.record ((Site.ofComponent target s).resolved source.shape) [],
              .ok ((Site.ofComponent target s).resolved source.shape)) := by
  have hf₁ : (r.noteAlias name target).find? (.ofComponent target) = none := by
    rw [find?, resolved_noteAlias]
    exact hf
  obtain ⟨merged, hout, hright⟩ :=
    (h.noteAlias name target).outline_eq (Scope.placeAt_ofComponent hd)
  refine ⟨_, merged, rfl, hright, ?_⟩
  rw [resolveWithin, h.scope_eq]
  simp only [ht, Document.definition_eq_ok_iff.2 hd, hf₁]
  rw [hout, Scope.outlineAt, Site.ofComponent]
  rcases (scope.outline target (.ofComponent target) s).outcome with e | (⟨shape, inlines⟩ | other)
  · rfl
  · rfl
  · rfl

/-- What is done for a component to which a name leads: it is known, it has a shape of its own, or
it has that of another component, for which less fuel is left. -/
inductive Resolves (scope : Scope) (fuel : Nat) (r : Resolver) (site : Site) :
    Resolver → Resolved → Prop where
  | known {s : Resolved} (found : r.find? site.pointer = some s) : Resolves scope fuel r site r s
  | own {shape : Shape} {inlines : List Inline} {merged : List (Pointer × ObjectShape)}
      (outline : (scope.outlineAt site).outcome = .ok (.shape shape inlines))
      (right : scope.Trusted [] { (r.note (scope.outlineAt site).warnings).toMemory with merged }) :
      Resolves scope fuel r site
        { (r.note (scope.outlineAt site).warnings).record (site.resolved shape) inlines with
          merged }
        (site.resolved shape)
  | same {other : String} {r' : Resolver} {source : Resolved}
      {merged : List (Pointer × ObjectShape)}
      (outline : (scope.outlineAt site).outcome = .ok (.sameAs other))
      (right : scope.Trusted [] { r.toMemory with merged })
      (rest : resolveWithin fuel { r with merged } other = (r', .ok source)) :
      Resolves scope fuel r site (r'.record (site.resolved source.shape) [])
        (site.resolved source.shape)

theorem resolveWithin_eq_ok {fuel : Nat} {name : String} {found : Resolved}
    (hr : Ready scope r) (h : resolveWithin (fuel + 1) r name = (r', .ok found)) :
    ∃ target s, scope.document.followAlias name name = .ok target ∧
      scope.document.definition? target = some s ∧
      Resolves scope fuel (r.noteAlias name target) (.ofComponent target s) r' found := by
  cases ht : scope.document.followAlias name name with
  | error e =>
    rw [resolveWithin_of_error hr ht] at h
    cases h
  | ok target =>
    obtain ⟨s, hd, -⟩ := (Document.canonical_of_followAlias ht).definition
    refine ⟨target, s, rfl, hd, ?_⟩
    cases hf : r.find? (.ofComponent target) with
    | some known =>
      rw [resolveWithin_of_known hr ht hd hf] at h
      cases h
      apply Resolves.known
      rw [find?, resolved_noteAlias]
      exact hf
    | none =>
      obtain ⟨r₁, merged, hr₁, hright, hwithin⟩ :=
        @resolveWithin_of_unknown scope r _ fuel name target s hr ht hd hf
      subst hr₁
      rw [hwithin] at h
      cases ho : (scope.outlineAt (.ofComponent target s)).outcome with
      | error e =>
        simp only [ho] at h
        cases h
      | ok outline =>
        cases outline with
        | shape shape inlines =>
          simp only [ho] at h
          cases h
          exact .own ho hright
        | sameAs other =>
          have hnone : (scope.outlineAt (.ofComponent target s)).warnings = [] :=
            (Scope.outline_sameAs ho).2.1
          rw [hnone] at hright h
          simp only [ho] at h
          split at h
          · cases h
          · rename_i hrest
            cases h
            exact .same ho hright hrest

theorem resolveWithin_run {fuel : Nat} {name : String} {found : Resolved} (hr : Ready scope r)
    (hm : Met scope order name) (h : resolveWithin fuel r name = (r', .ok found)) :
    Run scope order r r' ∧ ∃ target, scope.document.followAlias name name = .ok target ∧
      r'.Noted name target ∧ (Pointer.ofComponent target, found) ∈ r'.resolved := by
  induction fuel generalizing r r' name found with
  | zero => cases h
  | succ fuel ih =>
    obtain ⟨target, s, ht, hd, hres⟩ := resolveWithin_eq_ok hr h
    have hv := hm.visits ht hd
    have hrun : Run scope order r (r.noteAlias name target) := hm.noteAlias_run ht
    have hnoted := noted_noteAlias r name target
    cases hres with
    | known found => exact ⟨hrun, target, ht, hnoted, knows_of_find? found⟩
    | own outline right =>
      have hstep : Step scope order (r.noteAlias name target) _ := .own hv outline
      have hrest := Relation.ReflTransGen.tail (.single hstep) (.remember right)
      exact ⟨hrun.trans hrest, target, ht, Run.noted hrest ht hnoted,
        List.mem_append_right _ (List.mem_singleton.2 rfl)⟩
    | @same other r₂ source merged outline right rest =>
      have hc := (Scope.outline_sameAs outline).1
      have hmet : Met scope order other := .inr ⟨hc, fun t hd' => .same hv outline hd'⟩
      have hready : Ready scope { r.noteAlias name target with merged } :=
        ⟨(hr.noteAlias name target).scope_eq, right⟩
      obtain ⟨hrun₂, target₂, ht₂, -, hm₂⟩ := ih hready hmet rest
      -- the other component is not an alias, so it is itself what was resolved
      rw [hc.followAlias, Except.ok.injEq] at ht₂
      subst ht₂
      have hrest := (hrun₂.head (.remember right)).tail (.same hv outline hm₂)
      exact ⟨hrun.trans hrest, target, ht, Run.noted hrest ht hnoted,
        List.mem_append_right _ (List.mem_singleton.2 rfl)⟩

/-- Why a scope fails where another one has a shape: it finds no outline of the site. -/
def Fails (first scope : Scope) (reason : Stop) : Prop :=
  ∃ site shape error, first.HasShape site shape ∧
    (scope.outlineAt site).outcome = .error error ∧ reason = .failed error

theorem not_fails_self {reason : Stop} : ¬Fails scope scope reason := by
  rintro ⟨site, shape, error, ⟨n, hw⟩, herror, -⟩
  obtain ⟨found, hfound⟩ := hw.outline
  rw [hfound] at herror
  cases herror

/-- With a step for each component on the way to its shape a name is resolved, whatever is known
before, unless an outline on the way fails. The names in which the shape was found may be others. -/
theorem resolveWithin_error {first : Scope} {n : Nat} {name target : String} {s : Schema}
    {shape : Shape} {reason : Stop} (hfirst : scope.document = first.document)
    (hr : Ready scope r) (ht : scope.document.followAlias name name = .ok target)
    (hd : scope.document.definition? target = some s)
    (hw : first.ShapeWithin n (.ofComponent target s) shape)
    (h : resolveWithin n r name = (r', .error reason)) : Fails first scope reason := by
  induction n generalizing r r' name target s with
  | zero => cases hw
  | succ n ih =>
    cases hf : r.find? (.ofComponent target) with
    | some known =>
      rw [resolveWithin_of_known hr ht hd hf] at h
      cases h
    | none =>
      obtain ⟨r₁, merged, hr₁, hright, hwithin⟩ :=
        @resolveWithin_of_unknown scope r _ n name target s hr ht hd hf
      have hready : Ready scope r₁ := by
        refine ⟨?_, hright⟩
        rw [hr₁]
        exact (hr.noteAlias name target).scope_eq
      rw [hwithin] at h
      cases ho : (scope.outlineAt (.ofComponent target s)).outcome with
      | error error =>
        simp only [ho] at h
        cases h
        exact ⟨_, shape, error, ⟨_, hw⟩, ho, rfl⟩
      | ok outline =>
        cases outline with
        | shape own inlines =>
          simp only [ho] at h
          cases h
        | sameAs other =>
          simp only [ho] at h
          split at h
          · rename_i hrest
            cases h
            -- the other names lead to the same component
            cases hw with
            | own outline => cases Scope.outline_alike hfirst outline ho
            | same outline definition within =>
              cases Scope.outline_alike hfirst outline ho
              rw [← hfirst] at definition
              have hc := (Scope.outline_sameAs ho).1
              exact ih hready (hc.followAlias _) definition within hrest
          · cases h

theorem resolveWithin_succeeds {n : Nat} {name target : String} {s : Schema} {shape : Shape}
    (hr : Ready scope r) (ht : scope.document.followAlias name name = .ok target)
    (hd : scope.document.definition? target = some s)
    (hw : scope.ShapeWithin n (.ofComponent target s) shape) :
    ∃ r' found, resolveWithin n r name = (r', .ok found) := by
  cases h : resolveWithin n r name with
  | mk r' result =>
    cases result with
    | ok found => exact ⟨r', found, rfl⟩
    | error reason => exact absurd (resolveWithin_error rfl hr ht hd hw h) not_fails_self

theorem resolveComponent_run {name : String} {found : Resolved} (hr : Ready scope r)
    (hm : Met scope order name) (h : r.resolveComponent name = (r', .ok found)) :
    Run scope order r r' ∧ ∃ target, scope.document.followAlias name name = .ok target ∧
      r'.Noted name target ∧ (Pointer.ofComponent target, found) ∈ r'.resolved :=
  resolveWithin_run hr hm h

theorem resolveComponent_error {first : Scope} {name target : String} {s : Schema}
    {shape : Shape} {reason : Stop} (hfirst : scope.document = first.document)
    (hr : Ready scope r) (ht : scope.document.followAlias name name = .ok target)
    (hd : scope.document.definition? target = some s)
    (hshape : first.HasShape (.ofComponent target s) shape)
    (h : r.resolveComponent name = (r', .error reason)) : Fails first scope reason := by
  have hwithin := hshape.within (by rw [← hfirst]; exact hd)
  rw [← hfirst] at hwithin
  rw [resolveComponent, hr.scope_eq] at h
  exact resolveWithin_error hfirst hr ht hd (hwithin.mono (Nat.le_succ _)) h

/-- What a pass needs to succeed, in no regard of any order. -/
structure Resolvable (scope : Scope) (order : List String) : Prop where
  follows : ∀ name ∈ order, ∃ target, scope.document.followAlias name name = .ok target
  shapes : ∀ site, scope.Visits order site → ∃ shape, scope.HasShape site shape

theorem Resolvable.outline (h : Resolvable scope order) {site : Site}
    (hv : scope.Visits order site) : ∃ found, (scope.outlineAt site).outcome = .ok found := by
  obtain ⟨shape, n, hw⟩ := h.shapes site hv
  exact hw.outline

theorem resolveAll_run {names : List String} (hready : Ready scope r)
    (hm : ∀ name ∈ names, name ∈ order) (h : r.resolveAll names = .ok r') :
    Run scope order r r' ∧ ∀ name ∈ names, ∃ target,
      scope.document.followAlias name name = .ok target ∧ r'.Noted name target ∧
        r'.Knows (.ofComponent target) := by
  induction names generalizing r with
  | nil =>
    cases h
    exact ⟨.refl, by simp⟩
  | cons name rest ih =>
    rw [resolveAll] at h
    cases hr : r.resolveComponent name with
    | mk r₁ result =>
      cases result with
      | error e =>
        simp only [hr] at h
        cases h
      | ok found =>
        simp only [hr] at h
        obtain ⟨hrun, target, ht, hn, hk⟩ :=
          resolveComponent_run hready (.inl (hm name List.mem_cons_self)) hr
        obtain ⟨hrest, hall⟩ := ih (hrun.ready hready)
          (fun name' hm' => hm name' (List.mem_cons_of_mem _ hm')) h
        refine ⟨hrun.trans hrest, ?_⟩
        intro other ho
        rcases List.mem_cons.1 ho with rfl | ho
        · exact ⟨target, ht, hrest.noted ht hn, hrest.knows ⟨found, hk⟩⟩
        · exact hall other ho

theorem resolveAll_error {first : Scope} {names : List String} {reason : Stop}
    (hfirst : scope.document = first.document) (hresolvable : Resolvable first order)
    (hready : Ready scope r) (hm : ∀ name ∈ names, name ∈ order)
    (h : r.resolveAll names = .error reason) : Fails first scope reason := by
  induction names generalizing r with
  | nil => cases h
  | cons name rest ih =>
    have hname := hm name List.mem_cons_self
    obtain ⟨target, ht⟩ := hresolvable.follows name hname
    obtain ⟨s, hd, -⟩ := (Document.canonical_of_followAlias ht).definition
    obtain ⟨shape, hshape⟩ := hresolvable.shapes _ (.component hname ht hd)
    rw [← hfirst] at ht hd
    rw [resolveAll] at h
    cases hr : r.resolveComponent name with
    | mk r₁ result =>
      cases result with
      | error e =>
        simp only [hr] at h
        cases h
        exact resolveComponent_error hfirst hready ht hd hshape hr
      | ok found =>
        simp only [hr] at h
        have hrun := (resolveComponent_run hready (.inl hname) hr).1
        exact ih (hrun.ready hready) (fun name' hm' => hm name' (List.mem_cons_of_mem _ hm')) h

/-- An inline schema has a shape of its own, which its own outline says, or none. -/
theorem resolveInline_eq {i : Inline} (hr : Ready scope r)
    (hv : scope.Visits order (.ofInline i)) :
    (∃ e, (scope.outlineAt (.ofInline i)).outcome = .error e ∧
      r.resolveInline i = .error (.failed e)) ∨
    ∃ shape inlines merged,
      (scope.outlineAt (.ofInline i)).outcome = .ok (.shape shape inlines) ∧
      scope.Trusted [] { (r.note (scope.outlineAt (.ofInline i)).warnings).toMemory with merged } ∧
      r.resolveInline i = .ok { (r.note (scope.outlineAt (.ofInline i)).warnings).record
        ((Site.ofInline i).resolved shape) inlines with merged } := by
  obtain ⟨merged, hout, hright⟩ := hr.outline_eq hv.grounded.place
  have hout : r.outline i.name i.pointer i.schema = _ := hout
  rw [resolveInline, hout]
  cases ho : (scope.outlineAt (.ofInline i)).outcome with
  | error e =>
    have ho : (scope.outline i.name i.pointer i.schema).outcome = .error e := ho
    exact .inl ⟨e, rfl, by simp only [Site.ofInline, ho, Stop.ofExcept]⟩
  | ok outline =>
    cases outline with
    | shape shape inlines =>
      have ho : (scope.outline i.name i.pointer i.schema).outcome = .ok (.shape shape inlines) := ho
      refine .inr ⟨shape, inlines, merged, rfl, hright, ?_⟩
      simp only [Site.ofInline, ho, Stop.ofExcept]
      rfl
    | sameAs other => cases hv.grounded.inline_of_sameAs ho

/-- Resolving the inline schema at the head: it is resolved while it still waits, and left out as
known after that. -/
theorem resolveInline_run {i : Inline} {rest : List Inline}
    (hs : Sound scope order { r with pending := i :: rest }) (hp : r.pending = [])
    (h : r.resolveInline i = .ok r') :
    Run scope order { r with pending := i :: rest } { r' with pending := rest ++ r'.pending } ∧
      ∀ p, p = i.pointer ∨ r.Knows p → r'.Knows p := by
  have hv := hs.pending i List.mem_cons_self
  have hready : Ready scope r := ⟨hs.scope_eq, hs.memory⟩
  rcases resolveInline_eq hready hv with ⟨e, -, he⟩ | ⟨shape, inlines, merged, outline, right, hr'⟩
  · rw [he] at h
    cases h
  · rw [hr', Except.ok.injEq] at h
    subst h
    have hown := @Step.own _ scope order { r with pending := i :: rest } _ _ _ hv outline
    have hknown : (record (note { r with pending := i :: rest }
        (scope.outlineAt (.ofInline i)).warnings) ((Site.ofInline i).resolved shape)
        inlines).Knows i.pointer := knows_record.2 (.inl rfl)
    have hdrop := @Step.drop _ scope order _ i (rest ++ inlines) rfl hknown
    have hnew : (record (r.note (scope.outlineAt (.ofInline i)).warnings)
        ((Site.ofInline i).resolved shape) inlines).pending = inlines := by
      simp [record, note, hp]
    rw [hnew]
    exact ⟨(Relation.ReflTransGen.head hown (.single hdrop)).tail (.remember right),
      fun p hk => (@knows_record _ _ inlines p).2 hk⟩

theorem drain_run {todo : List Pointer} {waiting : List Inline}
    (hs : Sound scope order { r with pending := waiting }) (hp : r.pending = [])
    (h : drain todo waiting r = .ok r') :
    Run scope order { r with pending := waiting } r' ∧ r'.pending = [] := by
  fun_induction drain todo waiting r with
  | case1 todo r =>
    cases h
    have he : ({ r' with pending := [] } : Resolver) = r' := by rw [← hp]
    rw [he]
    exact ⟨.refl, hp⟩
  | case2 todo r i rest hk ih =>
    have hstep : Step scope order { r with pending := i :: rest } { r with pending := rest } :=
      .drop rfl (knows_of_isSome_find? hk)
    obtain ⟨hrun, hend⟩ := ih (hstep.sound hs) hp h
    exact ⟨.head hstep hrun, hend⟩
  | case3 todo r i rest hk hm e he => cases h
  | case4 todo r i rest hk hm r₁ hr ih =>
    have hrun := (resolveInline_run hs hp hr).1
    obtain ⟨hrest, hend⟩ := ih (hrun.sound hs) rfl h
    exact ⟨hrun.trans hrest, hend⟩
  | case5 todo r i rest hk hm => cases h

/-- Inline schemas stand at positions of the document, each of which is resolved once at most, so
there is always a position left for the next one, and only the outline of one may fail. -/
theorem drain_error {todo : List Pointer} {waiting : List Inline} {reason : Stop}
    (hs : Sound scope order { r with pending := waiting }) (hp : r.pending = [])
    (ht : ∀ p ∈ scope.document.positions, p ∈ todo ∨ r.Knows p)
    (h : drain todo waiting r = .error reason) :
    ∃ i error, scope.Visits order (.ofInline i) ∧
      (scope.outlineAt (.ofInline i)).outcome = .error error ∧ reason = .failed error := by
  fun_induction drain todo waiting r with
  | case1 todo r => cases h
  | case2 todo r i rest hk ih =>
    have hstep : Step scope order { r with pending := i :: rest } { r with pending := rest } :=
      .drop rfl (knows_of_isSome_find? hk)
    exact ih (hstep.sound hs) hp ht h
  | case3 todo r i rest hk hm e he =>
    have hv := hs.pending i List.mem_cons_self
    have hready : Ready scope r := ⟨hs.scope_eq, hs.memory⟩
    rcases resolveInline_eq hready hv with
      ⟨error, ho, herror⟩ | ⟨shape, inlines, merged, -, -, hok⟩
    · rw [he] at herror
      cases herror
      cases h
      exact ⟨i, error, hv, ho, rfl⟩
    · rw [he] at hok
      cases hok
  | case4 todo r i rest hk hm r₁ he ih =>
    obtain ⟨hrun, hknows⟩ := resolveInline_run hs hp he
    refine ih (hrun.sound hs) rfl ?_ h
    intro p hpos
    by_cases hpi : p = i.pointer
    · exact .inr (hknows p (.inl hpi))
    · rcases ht p hpos with h | h
      · exact .inl ((List.mem_erase_of_ne hpi).2 h)
      · exact .inr (hknows p (.inr h))
  | case5 todo r i rest hk hm =>
    have hv := hs.pending i List.mem_cons_self
    -- a position of the document is still to do or known
    have hpos := Scope.mem_positions_of_placeAt hv.grounded.place
    rcases ht _ hpos with h | h
    · exact absurd h hm
    · exact absurd (isSome_find?_of_knows h) hk

/-- What a resolver holds when a pass is over: the shapes of the visited sites, their warnings,
and what the names in `order` stand for. -/
structure Complete (scope : Scope) (order : List String) (r : Resolver) : Prop where
  sound : Sound scope order r
  knows : ∀ site, scope.Visits order site → r.Knows site.pointer
  warned : ∀ site, scope.Visits order site → ∀ w ∈ (scope.outlineAt site).warnings, w ∈ r.warnings
  noted : ∀ name ∈ order, ∃ target, scope.document.followAlias name name = .ok target ∧
    r.Noted name target

theorem pass_complete (h : pass scope order = .ok r) : Complete scope order r := by
  unfold pass at h
  obtain ⟨r₁, h₁, h⟩ := bind_eq_ok_iff.1 h
  obtain ⟨hrun₁, hall⟩ :=
    @resolveAll_run scope order _ r₁ _ order (ready_start scope) (fun _ hm => hm) h₁
  obtain ⟨hrun₂, hend⟩ := @drain_run scope order { r₁ with pending := [] } r _ _ _
    (hrun₁.sound (sound_start scope order)) rfl h
  have hrun : Run scope order (start scope) r := hrun₁.trans hrun₂
  have hsound := hrun.sound (sound_start scope order)
  have hclosed := hrun.closed (closed_start scope order)
  -- along a visit: what is known is covered, and nothing waits at the end
  have hknows : ∀ site, scope.Visits order site → r.Knows site.pointer := by
    intro site hv
    induction hv with
    | component mem follows definition =>
      obtain ⟨target, ht, -, hk⟩ := hall _ mem
      rw [follows, Except.ok.injEq] at ht
      subst ht
      exact hrun₂.knows hk
    | same visits outline definition ih => exact (hclosed _ visits ih).same _ outline
    | inside visits outline mem ih =>
      rcases (hclosed _ visits ih).inside _ _ outline _ mem with hi | hi
      · rw [hend] at hi
        cases hi
      · exact hi
  refine ⟨hsound, hknows, fun site hv => (hclosed site hv (hknows site hv)).warned, ?_⟩
  intro name hm
  obtain ⟨target, ht, hn, -⟩ := hall name hm
  exact ⟨target, ht, hrun₂.noted ht hn⟩

theorem Complete.resolvable (h : Complete scope order r) : Resolvable scope order where
  follows name hm := by
    obtain ⟨target, ht, -⟩ := h.noted name hm
    exact ⟨target, ht⟩
  shapes site hv := by
    obtain ⟨s, hs⟩ := h.knows site hv
    obtain ⟨shape, hshape, -⟩ := h.sound.shape_eq hv hs
    exact ⟨shape, hshape⟩

/-- Where a pass fails although one in other names of the document succeeds, it finds no outline of
a component or of an inline schema. -/
theorem pass_error {first : Scope} {reason : Stop} (hfirst : scope.document = first.document)
    (hresolvable : Resolvable first order) (h : pass scope order = .error reason) :
    Fails first scope reason ∨ ∃ i error, scope.Visits order (.ofInline i) ∧
      (scope.outlineAt (.ofInline i)).outcome = .error error ∧ reason = .failed error := by
  unfold pass at h
  cases h₁ : (start scope).resolveAll order with
  | error e =>
    rw [h₁] at h
    cases h
    exact .inl (resolveAll_error hfirst hresolvable (ready_start scope) (fun _ hm => hm) h₁)
  | ok r₁ =>
    rw [h₁] at h
    have hrun := (resolveAll_run (ready_start scope) (fun _ hm => hm) h₁).1
    have hsound := hrun.sound (sound_start scope order)
    exact .inr (@drain_error scope order { r₁ with pending := [] } _ _ _ _ hsound rfl
      (fun p hp => .inl hp) h)

theorem pass_succeeds_iff : (∃ r, pass scope order = .ok r) ↔ Resolvable scope order := by
  constructor
  · rintro ⟨r, h⟩
    exact (pass_complete h).resolvable
  · intro hresolvable
    cases h : pass scope order with
    | ok r => exact ⟨r, rfl⟩
    | error reason =>
      rcases pass_error rfl hresolvable h with hfails | ⟨i, error, hv, herror, -⟩
      · exact absurd hfails not_fails_self
      · obtain ⟨found, hfound⟩ := hresolvable.outline hv
        rw [hfound] at herror
        cases herror

/-- What is resolved is exactly the visited sites with their shapes. -/
theorem Complete.mem_resolved_iff (h : Complete scope order r) {e : Pointer × Resolved} :
    e ∈ r.resolved ↔ ∃ site shape, scope.Visits order site ∧ scope.HasShape site shape ∧
      e = (site.pointer, site.resolved shape) := by
  constructor
  · exact h.sound.resolved e
  · rintro ⟨site, shape, hv, hshape, rfl⟩
    obtain ⟨s, hs⟩ := h.knows site hv
    obtain ⟨shape', hshape', rfl⟩ := h.sound.shape_eq hv hs
    rw [hshape.unique hshape']
    exact hs

theorem Complete.find?_aliases (h : Complete scope order r) {name target : String} :
    r.aliases.find? name = some target ↔
      name ∈ order ∧ scope.document.followAlias name name = .ok target ∧ target ≠ name := by
  constructor
  · exact h.sound.aliases name target
  · rintro ⟨hm, ht, hne⟩
    obtain ⟨target', ht', hn⟩ := h.noted name hm
    rw [ht, Except.ok.injEq] at ht'
    subst ht'
    exact hn hne

theorem Complete.mem_warnings_iff (h : Complete scope order r) {w : Warning} :
    w ∈ r.warnings ↔
      ∃ site, scope.Visits order site ∧ w ∈ (scope.outlineAt site).warnings := by
  constructor
  · exact h.sound.warnings w
  · rintro ⟨site, hv, hw⟩
    exact h.warned site hv w hw

end Resolver

end SchemaModel
