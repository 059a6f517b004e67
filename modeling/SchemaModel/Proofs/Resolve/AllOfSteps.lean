import Mathlib.Logic.Relation
import SchemaModel.Proofs.Resolve.AliasChain
import SchemaModel.Proofs.Resolve.Session
import SchemaModel.Proofs.Resolve.Spelled
import SchemaModel.Proofs.Resolve.Termination

/-!
Where ways along `allOf` lead. One step goes from an alias to what it refers to, or from another
component to one that it names in `allOf`, itself or in an inline branch (`Document.AllOfStep`).
What could be merged has no way that does not end (`Scope.merging_ends`). So an object from which
a way leads into a cycle has no shape, whichever resolver is asked
(`Steady.resolveComponent_of_entersCycle`, `not_knows_of_entersCycle`).
-/

namespace SchemaModel

open Relation

/-- The reference is the node, or is named among the branches of `allOf` of the node, itself or in
an inline branch. -/
inductive Node.Names (reference : String) : Node → Prop where
  | self : Names reference (.ref reference)
  | branch {s : Schema} {node : Node} (mem : node ∈ s.allOf) (names : Names reference node) :
      Names reference (.schema s)

namespace Document

variable {d : Document} {name next other : String}

/-- One step along `allOf`: from an alias to the component that it refers to, or from any other
component to one that it names in `allOf`, itself or in an inline branch. -/
def AllOfStep (d : Document) (name next : String) : Prop :=
  d.AliasOf name next ∨ d.Canonical name ∧ ∃ s reference, d.definition? name = some s ∧
    (Node.schema s).Names reference ∧ Reference.component? reference = some next

/-- Steps along `allOf` lead into a cycle. -/
def EntersCycle (d : Document) (name : String) : Prop :=
  ∃ other, ReflTransGen d.AllOfStep name other ∧ TransGen d.AllOfStep other other

/-- All ways along `allOf` from a component end. -/
def AllOfEnds (d : Document) (name : String) : Prop :=
  Acc (fun next name => d.AllOfStep name next) name

theorem AllOfEnds.not_entersCycle (h : d.AllOfEnds name) : ¬ d.EntersCycle name := by
  rintro ⟨other, hreach, hcycle⟩
  have hother : d.AllOfEnds other := by
    clear hcycle
    induction hreach with
    | refl => exact h
    | tail _ hstep ih => exact Acc.inv ih hstep
  clear hreach h
  induction hother with
  | intro other _ ih =>
    obtain ⟨next, hstep, hback⟩ := TransGen.head'_iff.1 hcycle
    exact ih next hstep (TransGen.tail' hback hstep)

/-- An alias ends where what it refers to does. -/
theorem AllOfEnds.of_reaches (h : d.AllOfEnds other) (hr : ReflTransGen d.AliasOf name other) :
    d.AllOfEnds name := by
  induction hr using ReflTransGen.head_induction_on with
  | refl => exact h
  | head hstep _ ih =>
    refine Acc.intro _ fun next hnext => ?_
    rcases hnext with hnext | ⟨hc, -⟩
    · rwa [aliasOf_rightUnique d hnext hstep]
    · exact absurd hstep hc.not_aliasOf

/-- The component that a reference names is one from which all ways along `allOf` end. -/
def ReferenceEnds (d : Document) (reference : String) : Prop :=
  ∃ name, Reference.component? reference = some name ∧ d.AllOfEnds name

theorem AllOfEnds.of_names {s : Schema} (hc : d.Canonical name) (hs : d.definition? name = some s)
    (h : ∀ reference, (Node.schema s).Names reference → d.ReferenceEnds reference) :
    d.AllOfEnds name := by
  refine Acc.intro _ fun next hnext => ?_
  rcases hnext with hnext | ⟨-, t, reference, ht, hnames, hnext⟩
  · exact absurd hnext hc.not_aliasOf
  · rw [hs, Option.some.injEq] at ht
    subst ht
    obtain ⟨next', hnext', hends⟩ := h reference hnames
    rw [hnext, Option.some.injEq] at hnext'
    exact hnext' ▸ hends

/-- A component names another one in `allOf`, itself or in an inline branch. Aliases are
followed. -/
def Parent (d : Document) (name parent : String) : Prop :=
  d.Canonical name ∧ ∃ s reference, d.definition? name = some s ∧
    (Node.schema s).Names reference ∧ d.resolveRef name reference = .ok parent

theorem Parent.steps {name parent : String} (h : d.Parent name parent) :
    TransGen d.AllOfStep name parent := by
  obtain ⟨hc, s, reference, hs, hnames, hr⟩ := h
  obtain ⟨next, hnext, hreach, -⟩ := resolveRef_eq_ok_iff.1 hr
  have hsteps : ReflTransGen d.AllOfStep next parent :=
    ReflTransGen.mono (fun _ _ halias => Or.inl halias) _ _ hreach
  exact .head' (.inr ⟨hc, s, reference, hs, hnames, hnext⟩) hsteps

end Document

variable [Libraries]

namespace Scope

/-- What could be merged has no way along `allOf` that does not end. -/
theorem merging_ends (scope : Scope) :
    (∀ path name pointer s o, (scope.mergeSchema path name pointer s).outcome = .ok o →
      ∀ reference, (Node.schema s).Names reference → scope.document.ReferenceEnds reference) ∧
    (∀ path name pointer index branches o o',
      (scope.mergeBranches path name pointer index branches o).outcome = .ok o' →
      ∀ node ∈ branches, ∀ reference, node.Names reference →
        scope.document.ReferenceEnds reference) ∧
    ∀ path name o, (scope.mergeComponent path name).outcome = .ok o →
      scope.document.Canonical name → scope.document.AllOfEnds name := by
  apply merging_induction
  -- the path bounds the recursion; that ways end follows from what was merged inside
  case own =>
    intro path name pointer s merged o hmerged hown ih reference hnames
    cases hnames with
    | branch hmem hnames => exact ih _ hmem reference hnames
  case nil =>
    intro path name pointer index o node hnode
    cases hnode
  case ref =>
    intro path name pointer index target rest o parent inherited merged o' hparent hi hm ihc ihr
    refine List.forall_mem_cons.2 ⟨fun reference hnames => ?_, ihr⟩
    cases hnames
    obtain ⟨next, hnext, hr, hc⟩ := Document.resolveRef_eq_ok_iff.1 hparent
    exact ⟨next, hnext, (ihc hc).of_reaches hr⟩
  case inline =>
    intro path name pointer index s rest o inherited merged o' hm ihs ihr
    exact List.forall_mem_cons.2 ⟨ihs, ihr⟩
  case found =>
    intro path name s o hpath hs ih hc
    exact .of_names hc hs ih

variable {scope : Scope} {name : String} {s : Schema}

omit [Libraries] in
theorem canonical_of_object (hs : scope.document.definition? name = some s)
    (hc : s.category = .object) : scope.document.Canonical name := by
  have hunion : s.nullableUnion? = none :=
    Schema.nullableUnion_of_category (by simp [hc]) (by simp [hc])
  refine ⟨.schema s, Document.find?_of_definition hs, ?_⟩
  rw [Node.aliasTarget?, hunion]

/-- The outline of an object from which a way along `allOf` does not end is an error. -/
theorem outline_error_of_entersCycle (hs : scope.document.definition? name = some s)
    (hc : s.category = .object) (h : scope.document.EntersCycle name) :
    ∃ e, (scope.outlineAt (.ofComponent name s)).outcome = .error e := by
  cases houtline : (scope.outlineAt (.ofComponent name s)).outcome with
  | error e => exact ⟨e, rfl⟩
  | ok outline =>
    simp only [outlineAt, Site.ofComponent, outline_eq, hc,
      Traced.outcome_bind_eq_ok_iff] at houtline
    obtain ⟨o, ho, -⟩ := houtline
    rw [objectShape, Traced.outcome_bind_eq_ok_iff] at ho
    obtain ⟨merged, hmerged, -⟩ := ho
    have hends := (merging_ends scope).1 _ _ _ _ merged hmerged
    have hended := Document.AllOfEnds.of_names (canonical_of_object hs hc) hs hends
    exact absurd h hended.not_entersCycle

end Scope

namespace Resolver

variable {scope : Scope}

theorem steady_foldl (names : List String) {r : Resolver} (h : Steady scope r) :
    Steady scope (names.foldl (fun r name => (r.resolveComponent name).1) r) := by
  induction names generalizing r with
  | nil => exact h
  | cons name rest ih => exact ih (h.fits _ name).steady

/-- No resolver has a shape for an object from which a way along `allOf` does not end. -/
theorem Steady.resolveComponent_of_entersCycle {r : Resolver} (hr : Steady scope r) {name : String}
    {s : Schema} (hs : scope.document.definition? name = some s) (hc : s.category = .object)
    (h : scope.document.EntersCycle name) :
    ∃ e, (r.resolveComponent name).2 = .error (.failed e) := by
  obtain ⟨e, he⟩ := Scope.outline_error_of_entersCycle hs hc h
  have hcanonical := Scope.canonical_of_object hs hc
  have hnew : (start scope).find? (.ofComponent name) = none := rfl
  obtain ⟨r₁, -, hwithin⟩ :=
    @Steady.resolveWithin_of_unknown _ scope (start scope) scope.document.names.length name name s
      (steady_start scope) (hcanonical.followAlias name) hs hnew
  rw [hr.resolveComponent_eq (steady_start scope)]
  refine ⟨e, ?_⟩
  change (resolveWithin (scope.document.names.length + 1) (start scope) name).2 = _
  rw [hwithin, he]

/-- No pass has a shape for an object from which a way along `allOf` does not end. -/
theorem not_knows_of_entersCycle {scope : Scope} {order : List String} {r : Resolver}
    {name : String} {s : Schema} (h : pass scope order = .ok r)
    (hs : scope.document.definition? name = some s) (hc : s.category = .object)
    (hcycle : scope.document.EntersCycle name) : ¬ r.Knows (.ofComponent name) := by
  rintro ⟨found, hfound⟩
  obtain ⟨site, shape, hvisits, ⟨n, hwithin⟩, he⟩ := (pass_complete h).mem_resolved_iff.1 hfound
  have hsite : .ofComponent name s = site :=
    (Scope.grounded_ofComponent (Scope.canonical_of_object hs hc) hs).site_eq hvisits.grounded
      (congrArg Prod.fst he)
  obtain ⟨e, herror⟩ := Scope.outline_error_of_entersCycle hs hc hcycle
  obtain ⟨outline, hok⟩ := hwithin.outline
  rw [← hsite, herror] at hok
  cases hok

end Resolver

end SchemaModel
