import SchemaModel.Proofs.Computed
import SchemaModel.Proofs.Resolve.Contents
import SchemaModel.Proofs.Resolve.Position
import SchemaModel.Proofs.Resolve.Recall
import SchemaModel.Proofs.Resolve.Spelled

/-!
When the type of a component cannot be found. A walk over types goes from a component to the one
that its schema asks for, if it asks for one at all (`Document.TypeStep`); there is no choice on it.
In a document whose references all lead somewhere, the type of a component is not found exactly if
this walk comes back to a component that is already on it, and then the walk is what is reported
(`Scope.exists_typesExactly`).

How the type of a node fails depends on the asked component alone (`Scope.typeNode_error?`,
`Scope.namedType_error?`), so the induction is on the components that are not on the way yet.
-/

namespace SchemaModel

/-- The reference at which a walk over types leaves a node. The walk goes on through unions with
`null` and through the elements of arrays and maps. It ends at any other schema but a wrapper
around a single reference. -/
def Node.asked? (node : Node) : Option String :=
  match node with
  | .ref path => some path
  | .schema s =>
    match s.singleAllOfRef? with
    | some path => some path
    | none =>
      match _h : s.category with
      | .nullableOf union => union.inner.asked?
      | .array (some items) => items.asked?
      | .map (some values) => values.asked?
      | _ => none
termination_by sizeOf node
decreasing_by
  · have := Schema.category_nullableOf_lt _h
    simp
    omega
  · have := Schema.category_array_lt _h
    simp
    omega
  · have := Schema.category_map_lt _h
    simp
    omega

/-- The reference at which a walk over types leaves a component with this schema. A wrapper around a
single reference is an object here. -/
def Schema.asked? (s : Schema) : Option String :=
  match _h : s.category with
  | .nullableOf ⟨_, _, .schema inner⟩ => inner.asked?
  | .nullableOf ⟨_, _, .ref path⟩ => some path
  | .array (some items) => items.asked?
  | .map (some values) => values.asked?
  | _ => none
termination_by sizeOf s
decreasing_by
  have := Schema.category_nullableOf_lt _h
  simp at this
  omega

/-- The references that stand in a node. -/
def Node.refs (node : Node) : List String :=
  match node with
  | .ref path => [path]
  | .schema s => s.children.attach.flatMap fun ⟨child, _⟩ => Node.refs child.2
termination_by sizeOf node
decreasing_by
  have := Schema.sizeOf_lt_of_mem_children ‹_›
  simp
  omega

namespace Schema

variable {s : Schema} {path : String}

theorem mem_refs_of_child {child : Step × Node} (hc : child ∈ s.children)
    (h : path ∈ child.2.refs) : path ∈ (Node.schema s).refs := by
  rw [Node.refs, List.mem_flatMap]
  exact ⟨⟨child, hc⟩, List.mem_attach _ _, h⟩

theorem mem_refs_of_union {union : NullableUnion} (hc : s.category = .nullableOf union)
    (h : path ∈ union.inner.refs) : path ∈ (Node.schema s).refs := by
  rcases nullableUnion_index (category_nullableOf hc) with ⟨-, hi⟩ | ⟨-, hi⟩
  · exact mem_refs_of_child (Scope.mem_children_of_index.2.1 hi) h
  · exact mem_refs_of_child (Scope.mem_children_of_index.2.2 hi) h

theorem mem_refs_of_items {items : Node} (hc : s.category = .array (some items))
    (h : path ∈ items.refs) : path ∈ (Node.schema s).refs :=
  mem_refs_of_child (Scope.mem_children_of_items (category_array hc)) h

theorem mem_refs_of_values {values : Node} (hc : s.category = .map (some values))
    (h : path ∈ values.refs) : path ∈ (Node.schema s).refs :=
  mem_refs_of_child (Scope.mem_children_of_additional (category_map hc)) h

theorem mem_refs_of_wrapper (hw : s.singleAllOfRef? = some path) :
    path ∈ (Node.schema s).refs := by
  have hall : s.allOf = [.ref path] := by
    unfold singleAllOfRef? at hw
    split at hw
    · rename_i target hall
      split at hw
      · cases hw
        exact hall
      · cases hw
    · cases hw
  have hi : s.allOf[0]? = some (.ref path) := by rw [hall]; rfl
  refine mem_refs_of_child (Scope.mem_children_of_index.1 hi) ?_
  rw [Node.refs]
  exact List.mem_singleton_self path

end Schema

theorem Node.mem_refs_of_asked {node : Node} {path : String} (h : node.asked? = some path) :
    path ∈ node.refs := by
  fun_induction Node.asked? node with
  | case1 target =>
    cases h
    rw [Node.refs]
    exact List.mem_singleton_self path
  | case2 s target hw =>
    cases h
    exact Schema.mem_refs_of_wrapper hw
  | case3 s hw union hc ih => exact Schema.mem_refs_of_union hc (ih h)
  | case4 s hw items hc ih => exact Schema.mem_refs_of_items hc (ih h)
  | case5 s hw values hc ih => exact Schema.mem_refs_of_values hc (ih h)
  | case6 => cases h

namespace Schema

variable {s : Schema} {path : String}

theorem mem_refs_of_asked (h : s.asked? = some path) : path ∈ (Node.schema s).refs := by
  fun_induction Schema.asked? s with
  | case1 s keyword index inner hc ih => exact mem_refs_of_union hc (ih h)
  | case2 s keyword index target hc =>
    cases h
    refine mem_refs_of_union hc ?_
    rw [Node.refs]
    exact List.mem_singleton_self path
  | case3 s items hc => exact mem_refs_of_items hc (Node.mem_refs_of_asked h)
  | case4 s values hc => exact mem_refs_of_values hc (Node.mem_refs_of_asked h)
  | case5 => cases h

end Schema

namespace Traced

variable {α β : Type}

def error? (x : Traced α) : Option ModelError :=
  match x.outcome with
  | .error e => some e
  | .ok _ => none

theorem exists_of_error?_none {x : Traced α} (h : x.error? = none) : ∃ a, x.outcome = .ok a := by
  obtain ⟨outcome, warnings⟩ := x
  cases outcome with
  | error e => cases h
  | ok a => exact ⟨a, rfl⟩

theorem outcome_of_error?_some {x : Traced α} {e : ModelError} (h : x.error? = some e) :
    x.outcome = .error e := by
  obtain ⟨outcome, warnings⟩ := x
  cases outcome with
  | error e' =>
    cases h
    rfl
  | ok a => cases h

theorem error?_bind_pure (x : Traced α) (f : α → β) :
    (x >>= fun a => pure (f a)).error? = x.error? := by
  obtain ⟨outcome, warnings⟩ := x
  cases outcome with
  | error e => rfl
  | ok a => rfl

end Traced

namespace Scope

variable {scope : Scope}

/-- The type of the component that a reference names. -/
def askedType (scope : Scope) (path : List String) (context target : String) : Traced TypeRef := do
  let name ← Traced.lift (scope.document.resolveRef context target)
  scope.componentType path name

theorem typeNode_error? (path : List String) (context base : String) (node : Node)
    (pointer : Pointer) :
    (scope.typeNode path context base node pointer).error? =
      node.asked?.bind fun target => (scope.askedType path context target).error? := by
  have href : ∀ target, (do
      let name ← Traced.lift (scope.document.resolveRef context target)
      let type ← scope.componentType path name
      return (type, ([] : List Inline))).error? = (scope.askedType path context target).error? := by
    intro target
    rw [← Traced.error?_bind_pure (scope.askedType path context target) fun type =>
      (type, ([] : List Inline)), askedType, bind_assoc]
  fun_induction Node.asked? node generalizing base pointer with
  | case1 target =>
    rw [typeNode_ref]
    exact href target
  | case2 s target hw =>
    rw [typeNode_schema, hw]
    exact href target
  | case3 s hw union hc ih =>
    rw [typeNode_schema, hw, hc]
    exact ih _ _
  | case4 s hw items hc ih =>
    simp only [typeNode_schema, hw, hc]
    rw [Traced.error?_bind_pure]
    exact ih _ _
  | case5 s hw values hc ih =>
    simp only [typeNode_schema, hw, hc]
    rw [Traced.error?_bind_pure]
    exact ih _ _
  | case6 s hw hunion harray hmap =>
    rw [typeNode_schema, hw]
    dsimp only
    split
    · rfl
    · rfl
    · rename_i union h
      exact (hunion union h).elim
    · rfl
    · rfl
    · rename_i items h
      exact (harray items h).elim
    · rfl
    · rename_i values h
      exact (hmap values h).elim
    · rfl

theorem namedType_error? (path : List String) (name : String) (s : Schema) (pointer : Pointer) :
    (scope.namedType path name s pointer).error? =
      s.asked?.bind fun target => (scope.askedType path name target).error? := by
  fun_induction Schema.asked? s generalizing pointer with
  | case1 s keyword index inner hc ih =>
    rw [namedType_eq, hc]
    exact ih _
  | case2 s keyword index target hc =>
    rw [namedType_eq, hc]
    rfl
  | case3 s items hc =>
    rw [namedType_eq, hc]
    dsimp only
    rw [Traced.error?_bind_pure, typeNode_error?]
  | case4 s values hc =>
    rw [namedType_eq, hc]
    dsimp only
    rw [Traced.error?_bind_pure, typeNode_error?]
  | case5 s hinner hreference harray hmap =>
    rw [namedType_eq]
    split
    · rfl
    · rfl
    · rfl
    · rename_i h
      exact (hinner _ _ _ h).elim
    · rename_i h
      exact (hreference _ _ _ h).elim
    · rfl
    · rename_i h
      exact (harray _ h).elim
    · rfl
    · rename_i h
      exact (hmap _ h).elim
    · rfl

end Scope

namespace Document

variable {d : Document}

/-- All references resolve, and all chains of aliases end. -/
structure Closed (d : Document) : Prop where
  resolves : ∀ e ∈ d.components, ∀ path ∈ e.2.refs, ∃ target, d.resolveRef e.1 path = .ok target
  ends : ∀ name ∈ d.names, ∃ target, d.followAlias name name = .ok target

theorem Closed.exists_asked {name context path : String} {s : Schema} (h : d.Closed)
    (hs : d.definition? name = some s) (hasked : s.asked? = some path) :
    ∃ next, d.resolveRef context path = .ok next := by
  have hmem : (name, Node.schema s) ∈ d.components := mem_of_lookup (find?_of_definition hs)
  obtain ⟨target, hr⟩ := h.resolves _ hmem path (Schema.mem_refs_of_asked hasked)
  exact ⟨target, resolveRef_context hr⟩

/-- One step of a walk over types: from a component, or from an alias of one, to the component that
its schema asks for. -/
def TypeStep (d : Document) (name next : String) : Prop :=
  ∃ target s path, d.followAlias name name = .ok target ∧ d.definition? target = some s ∧
    s.asked? = some path ∧ d.resolveRef name path = .ok next

theorem typeStep_iff {name next target : String} {s : Schema}
    (hf : d.followAlias name name = .ok target) (hs : d.definition? target = some s) :
    d.TypeStep name next ↔ ∃ path, s.asked? = some path ∧ d.resolveRef name path = .ok next := by
  constructor
  · rintro ⟨target', s', path, hf', hs', hasked, hr⟩
    rw [hf, Except.ok.injEq] at hf'
    subst hf'
    rw [hs, Option.some.injEq] at hs'
    subst hs'
    exact ⟨path, hasked, hr⟩
  · rintro ⟨path, hasked, hr⟩
    exact ⟨target, s, path, hf, hs, hasked, hr⟩

theorem typeStep_unique {name next other : String} (h : d.TypeStep name next)
    (h' : d.TypeStep name other) : next = other := by
  obtain ⟨target, s, path, hf, hs, hasked, hr⟩ := h
  obtain ⟨path', hasked', hr'⟩ := (typeStep_iff hf hs).1 h'
  rw [hasked, Option.some.injEq] at hasked'
  subst hasked'
  rw [hr, Except.ok.injEq] at hr'
  exact hr'

/-- The walk over types from `name` to `last`; the components before `last` are listed. -/
inductive TypeWalk (d : Document) : String → List String → String → Prop where
  | start {name : String} : TypeWalk d name [] name
  | step {name next last : String} {met : List String} (step : d.TypeStep name next)
      (rest : TypeWalk d next met last) : TypeWalk d name (name :: met) last

theorem TypeWalk.append {name last next : String} {met : List String}
    (h : d.TypeWalk name met last) (hstep : d.TypeStep last next) :
    d.TypeWalk name (met ++ [last]) next := by
  induction h with
  | start => exact .step hstep .start
  | step first rest ih => exact .step first (ih hstep)

theorem TypeWalk.mem_first {name last : String} {met : List String}
    (h : d.TypeWalk name met last) : name ∈ met ++ [last] := by
  cases h with
  | start => exact List.mem_singleton_self _
  | step => exact List.mem_cons_self

theorem TypeStep.canonical {name next : String} (h : d.TypeStep name next) : d.Canonical next := by
  obtain ⟨target, s, path, -, -, -, hr⟩ := h
  exact canonical_of_resolveRef hr

theorem TypeWalk.canonical {name last : String} {met : List String}
    (h : d.TypeWalk name met last) (hc : d.Canonical name) : d.Canonical last := by
  induction h with
  | start => exact hc
  | step first rest ih => exact ih first.canonical

/-- The walk over types from a component comes back to one that is already on it. -/
def TypesReturn (d : Document) (name : String) : Prop :=
  ∃ met last, d.TypeWalk name met last ∧ last ∈ met

/-- From an alias the walk goes on as from the component that the alias leads to. -/
theorem typesReturn_iff {name target : String} (hf : d.followAlias name name = .ok target) :
    d.TypesReturn name ↔ d.TypesReturn target := by
  have hc := canonical_of_followAlias hf
  obtain ⟨s, hs, -⟩ := hc.definition
  have hstep : ∀ next, d.TypeStep name next ↔ d.TypeStep target next := by
    intro next
    rw [typeStep_iff hf hs, typeStep_iff (hc.followAlias target) hs]
    exact exists_congr fun path => and_congr_right fun _ =>
      ⟨resolveRef_context, resolveRef_context⟩
  by_cases hname : name = target
  · rw [hname]
  constructor
  · rintro ⟨met, last, hwalk, hmem⟩
    cases hwalk with
    | start => cases hmem
    | @step _ next _ rest first walk =>
      refine ⟨target :: rest, last, .step ((hstep next).1 first) walk, ?_⟩
      rcases List.mem_cons.1 hmem with rfl | hmem
      · -- a walk does not come back to an alias
        have hlast := (walk.canonical first.canonical).followAlias last
        rw [hf, Except.ok.injEq] at hlast
        exact absurd hlast.symm hname
      · exact List.mem_cons_of_mem _ hmem
  · rintro ⟨met, last, hwalk, hmem⟩
    cases hwalk with
    | start => cases hmem
    | @step _ next _ rest first walk =>
      have hfirst := (hstep next).2 first
      rcases List.mem_cons.1 hmem with rfl | hmem
      · exact ⟨_, next, .step hfirst (walk.append first), List.mem_cons_of_mem _ walk.mem_first⟩
      · exact ⟨_, last, .step hfirst walk, List.mem_cons_of_mem _ hmem⟩

end Document

namespace Scope

variable {scope : Scope}

/-- The type of a component in its own name, also if it is an alias: it has the schema that the
alias leads to. -/
def ownType (scope : Scope) (path : List String) (name : String) : Traced TypeRef :=
  if name ∈ path then Traced.fail (typingCycle path name)
  else do
    let target ← Traced.lift (scope.document.followAlias name name)
    let s ← Traced.lift (scope.document.definition target)
    scope.namedType (path ++ [name]) name s (.ofComponent name)

theorem ownType_eq {path : List String} {name target : String} {s : Schema} (hn : name ∉ path)
    (hf : scope.document.followAlias name name = .ok target)
    (hs : scope.document.definition? target = some s) :
    scope.ownType path name = scope.namedType (path ++ [name]) name s (.ofComponent name) := by
  have hdefined := Document.definition_eq_ok_iff.2 hs
  rw [ownType, if_neg hn, hf]
  change (do
    let s ← Traced.lift (scope.document.definition target)
    scope.namedType (path ++ [name]) name s (.ofComponent name)) = _
  rw [hdefined]
  rfl

theorem ownType_of_canonical {name : String} (h : scope.document.Canonical name)
    (path : List String) : scope.ownType path name = scope.componentType path name := by
  obtain ⟨s, hs, -⟩ := h.definition
  rw [componentType_eq]
  split
  · rename_i hn
    rw [ownType, if_pos hn]
  · rename_i hn
    rw [ownType_eq hn (h.followAlias name) hs, hs]

theorem askedType_eq {path : List String} {context reference name : String}
    (h : scope.document.resolveRef context reference = .ok name) :
    scope.askedType path context reference = scope.componentType path name := by
  rw [askedType, h]
  rfl

/-- A type is found if the walk from a component meets neither a component on the way nor one of
its own; and if it meets one, this is the error. -/
inductive TypesAlong (scope : Scope) (path : List String) (name : String) :
    Option ModelError → Prop where
  | ends (new : ∀ met last, scope.document.TypeWalk name met last → last ∉ path ++ met) :
      TypesAlong scope path name none
  | returns {met : List String} {last : String} (walk : scope.document.TypeWalk name met last)
      (known : last ∈ path ++ met) :
      TypesAlong scope path name (some (typingCycle (path ++ met) last))

theorem TypesAlong.back {path : List String} {name next : String} {e : Option ModelError}
    (h : scope.TypesAlong (path ++ [name]) next e) (hn : name ∉ path)
    (hstep : scope.document.TypeStep name next) : scope.TypesAlong path name e := by
  have hway : ∀ met : List String, path ++ name :: met = path ++ [name] ++ met :=
    fun met => List.append_cons path name met
  cases h with
  | ends new =>
    refine .ends fun met last hwalk => ?_
    cases hwalk with
    | start => simpa using hn
    | step hother hrest =>
      rw [Document.typeStep_unique hother hstep] at hrest
      rw [hway]
      exact new _ _ hrest
  | returns walk known =>
    rw [← hway] at known ⊢
    exact .returns (.step hstep walk) known

theorem ownType_along (h : scope.document.Closed) (path : List String) {name : String}
    (hn : name ∈ scope.document.names) :
    scope.TypesAlong path name (scope.ownType path name).error? := by
  induction hsize : scope.document.unseen path using Nat.strongRecOn generalizing path name with
  | ind n ih =>
    by_cases hmet : name ∈ path
    · rw [ownType, if_pos hmet]
      have hreturn : scope.TypesAlong path name (some (typingCycle (path ++ []) name)) :=
        .returns .start (List.mem_append_left _ hmet)
      rwa [List.append_nil] at hreturn
    · obtain ⟨target, hf⟩ := h.ends name hn
      obtain ⟨s, hs, -⟩ := (Document.canonical_of_followAlias hf).definition
      rw [ownType_eq hmet hf hs, namedType_error?]
      cases hasked : s.asked? with
      | none =>
        refine .ends fun met last hwalk => ?_
        cases hwalk with
        | start => simpa using hmet
        | step hstep =>
          obtain ⟨reference, hreference, -⟩ := (Document.typeStep_iff hf hs).1 hstep
          rw [hasked] at hreference
          cases hreference
      | some reference =>
        obtain ⟨next, hnext⟩ := h.exists_asked hs hasked
        have hcanonical := Document.canonical_of_resolveRef hnext
        have hlt := scope.document.unseen_append_lt hn hmet
        have halong := ih _ (hsize ▸ hlt) (path ++ [name]) hcanonical.mem_names rfl
        have hstep : scope.document.TypeStep name next :=
          (Document.typeStep_iff hf hs).2 ⟨reference, hasked, hnext⟩
        rw [Option.bind_some, askedType_eq hnext, ← ownType_of_canonical hcanonical]
        exact halong.back hmet hstep

/-- `ownType` with memory. -/
def ownTypeM (scope : Scope) (fuel : Nat) (name : String) : Recall TypeRef := do
  let m ← Recall.get
  if name ∈ m.typing then Recall.stop (.failed (typingCycle m.typing name))
  else
    let target ← Recall.trace (Traced.lift (scope.document.followAlias name name))
    let s ← Recall.trace (Traced.lift (scope.document.definition target))
    Recall.whileTyping name (scope.namedTypeM fuel name s (.ofComponent name))

theorem ownTypeM_traces {path : List String} {fuel : Nat} {name : String}
    (hn : name ∈ scope.document.names) (hf : scope.document.unseen path ≤ fuel) :
    Recall.Traces path (scope.ownTypeM fuel name) (scope.ownType path name) := by
  intro m hm
  change (if name ∈ m.typing then Recall.stop (.failed (typingCycle m.typing name)) else _) m = _
  rw [hm, ownType]
  by_cases hmet : name ∈ path
  · rw [if_pos hmet, if_pos hmet]
    rfl
  · rw [if_neg hmet, if_neg hmet]
    have hlt := scope.document.unseen_append_lt hn hmet
    refine (Recall.traces_trace _).bind (fun _ => (Recall.traces_trace _).bind fun s => ?_) m hm
    refine Recall.Traces.whileTyping (namedTypeM_traces (fun other => ?_) name s _)
    exact componentTypeM_traces (by omega) other

end Scope

/-- What typing a component comes to: it fails exactly if the walk from the component returns, and
has a type otherwise. The error is the walk that returns, and nothing is left on the way. -/
structure Document.Decides {α : Type} (d : Document) (name : String)
    (result : Memory × Except Stop α) : Prop where
  way : result.1.typing = []
  fails_iff : (∃ schema reference chain, result.2 =
    .error (.failed (.unresolvable schema reference (.cycle chain)))) ↔ d.TypesReturn name
  succeeds : ¬ d.TypesReturn name → ∃ a, result.2 = .ok a
  reports : d.TypesReturn name → ∃ met last, d.TypeWalk name met last ∧ last ∈ met ∧
    result.2 = .error (.failed (Scope.typingCycle met last))

namespace Scope

variable {scope : Scope}

theorem TypesAlong.decides {α : Type} {name : String} {x : Recall α} {y : Traced α}
    (h : scope.TypesAlong [] name y.error?) (hx : Recall.Traces [] x y) {m : Memory}
    (hm : m.typing = []) : scope.document.Decides name (x m) := by
  rw [hx m hm]
  generalize herror : y.error? = error at h
  cases h with
  | ends new =>
    obtain ⟨a, ha⟩ := Traced.exists_of_error?_none herror
    have hnot : ¬ scope.document.TypesReturn name := fun ⟨met, last, hwalk, hmem⟩ =>
      new met last hwalk hmem
    have hfound : (Recall.trace y m).2 = .ok a := congrArg Stop.ofExcept ha
    refine ⟨hm, iff_of_false ?_ hnot, fun _ => ⟨a, hfound⟩, fun hreturn => absurd hreturn hnot⟩
    rintro ⟨schema, reference, chain, hfailed⟩
    rw [hfound] at hfailed
    cases hfailed
  | @returns met last walk known =>
    have he := Traced.outcome_of_error?_some herror
    have hreturn : scope.document.TypesReturn name := ⟨met, last, walk, known⟩
    have hfailed : (Recall.trace y m).2 = .error (.failed (typingCycle met last)) :=
      congrArg Stop.ofExcept he
    refine ⟨hm, iff_of_true ⟨_, _, _, hfailed⟩ hreturn, fun hnot => absurd hreturn hnot,
      fun _ => ⟨met, last, walk, known, hfailed⟩⟩

/-- Typing cycles are reported exactly for a component that stands for `target`, be its type found
in its own name, in that of `target` or through a reference. -/
structure TypesExactly (scope : Scope) (name target : String) : Prop where
  leads : scope.document.followAlias name name = .ok target
  own : ∀ m, m.typing = [] →
    scope.document.Decides name (scope.ownTypeM scope.document.names.length name m)
  component : ∀ m, m.typing = [] →
    scope.document.Decides target (scope.componentTypeM scope.depth target m)
  reference : ∀ context base path pointer m, Reference.component? path = some name →
    m.typing = [] → scope.document.Decides target
      (scope.typeNodeM scope.depth context base (.ref path) pointer m)
  returns_iff : scope.document.TypesReturn name ↔ scope.document.TypesReturn target
  /-- Whatever properties an object has, they do not matter. -/
  named : ∀ s, scope.document.definition? target = some s →
    s.category = .object ∨ s.category = .enum → ∀ context base path pointer m,
      Reference.component? path = some name → m.typing = [] →
      (scope.typeNodeM scope.depth context base (.ref path) pointer m).2 = .ok (.named target, [])

theorem exists_typesExactly (h : scope.document.Closed) {name : String}
    (hn : name ∈ scope.document.names) : ∃ target, scope.TypesExactly name target := by
  have hunseen : scope.document.unseen [] ≤ scope.document.names.length :=
    List.length_filter_le _ _
  have hdepth : scope.document.unseen [] < scope.depth := Nat.lt_succ_of_le hunseen
  obtain ⟨target, hf⟩ := h.ends name hn
  have hc := Document.canonical_of_followAlias hf
  have hcomponent : scope.TypesAlong [] target (scope.componentType [] target).error? := by
    rw [← ownType_of_canonical hc]
    exact ownType_along h [] hc.mem_names
  have hresolve : ∀ context path, Reference.component? path = some name →
      scope.document.resolveRef context path = .ok target := by
    intro context path hpath
    have hown : scope.document.resolveRef name path = .ok target := by
      rw [Document.resolveRef, hpath]
      exact hf
    exact Document.resolveRef_context hown
  refine ⟨target, hf, fun m hm => ?_, fun m hm => ?_, ?_, Document.typesReturn_iff hf, ?_⟩
  · exact (ownType_along h [] hn).decides (ownTypeM_traces hn hunseen) hm
  · exact hcomponent.decides (componentTypeM_traces hdepth target) hm
  · intro context base path pointer m hpath hm
    refine TypesAlong.decides ?_ (typeNodeM_traces_nil context base (.ref path) pointer) hm
    rw [typeNode_error?, Node.asked?, Option.bind_some, askedType_eq (hresolve context path hpath)]
    exact hcomponent
  · intro s hs hcategory context base path pointer m hpath hm
    have htype : scope.componentType [] target = pure (.named target) := by
      rw [componentType_eq, if_neg List.not_mem_nil, hs]
      dsimp only
      rw [namedType_eq]
      rcases hcategory with hcategory | hcategory
      · rw [hcategory]
      · rw [hcategory]
    rw [typeNodeM_traces_nil context base (.ref path) pointer m hm, typeNode_ref,
      hresolve context path hpath]
    change (Recall.trace (scope.componentType [] target >>= fun type => pure (type, [])) m).2 = _
    rw [htype]
    rfl

end Scope

/-- A grid of rows, each a list of grids or null, and a person with friends. -/
def nestedGrid : Document :=
  let null : Node := .schema { Schema.empty with type := some (.single .null) }
  let list (items : Node) : Node :=
    .schema { Schema.empty with type := some (.single .array), items := some items }
  ⟨"3.0.3", default,
    [("Grid", list (.schema { Schema.empty with allOf := [.ref "#/components/schemas/Rows"] })),
      ("Rows", .ref "#/components/schemas/Row"),
      ("Row", list (.schema { Schema.empty with
        anyOf := [.ref "#/components/schemas/Grid", null] })),
      ("Person", .schema { Schema.empty with
        type := some (.single .object)
        properties := [("friends", list (.ref "#/components/schemas/Person"))] })], by decide⟩

theorem nestedGrid_closed : nestedGrid.Closed := by
  have hrefs : nestedGrid.components.all fun e =>
      e.2.refs.all fun path => (nestedGrid.resolveRef e.1 path).toOption.isSome := by cbv
  have hnames : nestedGrid.names.all fun name =>
      (nestedGrid.followAlias name name).toOption.isSome := by cbv
  constructor
  · intro e he path hpath
    exact exists_eq_ok_of_isSome (List.all_eq_true.1 (List.all_eq_true.1 hrefs e he) path hpath)
  · intro name hname
    exact exists_eq_ok_of_isSome (List.all_eq_true.1 hnames name hname)

theorem exists_typesExactly_nested_grid : nestedGrid.Closed ∧ "Grid" ∈ nestedGrid.names ∧
    ∃ target, Scope.TypesExactly ⟨nestedGrid, []⟩ "Grid" target :=
  ⟨nestedGrid_closed, by decide, Scope.exists_typesExactly nestedGrid_closed (by decide)⟩

end SchemaModel
