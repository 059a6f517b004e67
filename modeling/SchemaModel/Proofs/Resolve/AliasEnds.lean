import Mathlib.Data.List.Nodup
import Mathlib.Data.List.Perm.Subperm
import SchemaModel.Proofs.Resolve.AliasChain

/-!
How chains of aliases end. A chain is walked along as long as it comes to new names, each a
component but the last; so there is one walk from a name, and it is no longer than the components
are many. At its end it has found a component that is no alias, a name that is no component, a
reference that names none, or a name that it had met before, and that is what following the name
answers (`Document.followAlias_walks`).
-/

namespace SchemaModel

open Relation

namespace Document

variable {d : Document} {context name last next path : String} {met : List String}
  {answer : Except ModelError String}

/-- A component that is an alias by way of the reference `path`. -/
def RefersBy (d : Document) (name path : String) : Prop :=
  ∃ node, d.find? name = some node ∧ node.aliasTarget? = some path

/-- A walk along the chain of a name: the names that were met, in order, and the last of them. -/
inductive Walk (d : Document) (name : String) : List String → String → Prop where
  | start : Walk d name [name] name
  | step {met : List String} {last next : String} (walk : Walk d name met last)
      (onward : d.AliasOf last next) (new : next ∉ met) : Walk d name (met ++ [next]) next

/-- What is answered where a walk ends: it comes to a component that is no alias, to a name that is
missing, to a reference out of the components, or to a name that it has met. -/
inductive EndsWith (d : Document) (context : String) (met : List String) (last : String) :
    Except ModelError String → Prop where
  | found (canonical : d.Canonical last) : EndsWith d context met last (.ok last)
  | dangling (missing : d.find? last = none) : EndsWith d context met last
      (.error (.unresolvable context (Reference.ofComponent last) .dangling))
  | external {path : String} (refers : d.RefersBy last path)
      (outside : Reference.component? path = none) : EndsWith d context met last
      (.error (.unresolvable last path .external))
  | cycle {path next : String} (refers : d.RefersBy last path)
      (names : Reference.component? path = some next) (known : next ∈ met) :
      EndsWith d context met last (.error (.unresolvable context path (.cycle (met ++ [next]))))

theorem followFrom_of_refersBy (h : d.RefersBy name path) (chain : List String) :
    d.followFrom context chain name =
      match Reference.component? path with
      | none => .error (.unresolvable name path .external)
      | some next =>
        if next ∈ chain then .error (.unresolvable context path (.cycle (chain ++ [next])))
        else d.followFrom context (chain ++ [next]) next := by
  obtain ⟨node, hf, ha⟩ := h
  rw [followFrom_eq, hf]
  cases hc : Reference.component? path with
  | none => simp only [ha, hc]
  | some next => simp only [ha, hc]

theorem EndsWith.followFrom (h : d.EndsWith context met last answer) :
    d.followFrom context met last = answer := by
  cases h with
  | found canonical =>
    obtain ⟨node, hf, ha⟩ := canonical
    rw [followFrom_eq, hf]
    simp only [ha]
  | dangling missing => rw [followFrom_eq, missing]
  | external refers outside => rw [followFrom_of_refersBy refers, outside]
  | cycle refers names known =>
    rw [followFrom_of_refersBy refers, names]
    exact if_pos known

/-- Following a name goes along every walk from it. -/
theorem Walk.followAlias (h : d.Walk name met last) (context : String) :
    d.followAlias context name = d.followFrom context met last := by
  induction h with
  | start => rfl
  | @step met last next walk onward new ih =>
    obtain ⟨node, path, hf, ha, hn⟩ := onward
    rw [ih, followFrom_of_refersBy ⟨node, hf, ha⟩, hn]
    exact if_neg new

/-- A walk that is under way comes to an end, at which following the name stops. -/
theorem Walk.exists_end (h : d.Walk name met last) (context : String) :
    ∃ met' last', d.Walk name met' last' ∧
      d.EndsWith context met' last' (d.followFrom context met last) := by
  fun_induction Document.followFrom d context met last with
  | case1 met last hf => exact ⟨met, last, h, .dangling hf⟩
  | case2 met last node hf ha => exact ⟨met, last, h, .found ⟨node, hf, ha⟩⟩
  | case3 met last node hf path ha hn => exact ⟨met, last, h, .external ⟨node, hf, ha⟩ hn⟩
  | case4 met last node hf path ha next hn hc =>
    exact ⟨met, last, h, .cycle ⟨node, hf, ha⟩ hn hc⟩
  | case5 met last node hf path ha next hn hc ih =>
    exact ih (h.step ⟨node, path, hf, ha, hn⟩ hc)

theorem Walk.mem_last (h : d.Walk name met last) : last ∈ met := by
  cases h with
  | start => exact List.mem_singleton_self _
  | step walk onward new => exact List.mem_append_right _ (List.mem_singleton_self _)

theorem Walk.reaches (h : d.Walk name met last) : ∀ n ∈ met, ReflTransGen d.AliasOf name n := by
  induction h with
  | start =>
    intro n hn
    rw [List.mem_singleton.1 hn]
  | step walk onward new ih =>
    intro n hn
    rcases List.mem_append.1 hn with hn | hn
    · exact ih n hn
    · rw [List.mem_singleton.1 hn]
      exact (ih _ walk.mem_last).tail onward

/-- The names on a walk are different ones, and components up to the last. -/
theorem Walk.split (h : d.Walk name met last) :
    ∃ before, met = before ++ [last] ∧ met.Nodup ∧ ∀ n ∈ before, n ∈ d.names := by
  induction h with
  | start => exact ⟨[], rfl, List.nodup_singleton _, by simp⟩
  | @step met last next walk onward new ih =>
    obtain ⟨before, rfl, hnodup, hnames⟩ := ih
    refine ⟨before ++ [last], rfl, ?_, ?_⟩
    · rw [← List.concat_eq_append, List.nodup_concat]
      exact ⟨new, hnodup⟩
    · intro n hn
      rcases List.mem_append.1 hn with hn | hn
      · exact hnames n hn
      · obtain ⟨node, path, hf, -, -⟩ := onward
        rw [List.mem_singleton.1 hn]
        exact mem_names_of_find hf

theorem Walk.length_le (h : d.Walk name met last) : met.length ≤ d.names.length + 1 := by
  obtain ⟨before, rfl, hnodup, hnames⟩ := h.split
  have hbefore : before.length ≤ d.names.length :=
    ((List.nodup_append.1 hnodup).1.subperm hnames).length_le
  simp only [List.length_append, List.length_singleton]
  omega

/-- Where a walk ends does not depend on whose error it would be. -/
theorem EndsWith.exists_other (h : d.EndsWith context met last answer) (other : String) :
    ∃ answer', d.EndsWith other met last answer' := by
  cases h with
  | found canonical => exact ⟨_, .found canonical⟩
  | dangling missing => exact ⟨_, .dangling missing⟩
  | external refers outside => exact ⟨_, .external refers outside⟩
  | cycle refers names known => exact ⟨_, .cycle refers names known⟩

/-- From each name there is one walk to an end. Following the name answers, in every context, what
this end says; and if a component is found, it is the end, and what all names on the walk lead to,
itself among them. -/
theorem followAlias_walks (d : Document) (name : String) :
    ∃ met last, d.Walk name met last ∧ met.length ≤ d.names.length + 1 ∧
      (∀ context answer, d.followAlias context name = answer ↔ d.EndsWith context met last answer) ∧
      ∀ context target, d.followAlias context name = .ok target ↔
        target = last ∧ ∀ n ∈ met, ∀ other, d.followAlias other n = .ok target := by
  have hstart : d.Walk name [name] name := .start
  obtain ⟨met, last, hwalk, hend⟩ := hstart.exists_end name
  have hanswer : ∀ context answer,
      d.followAlias context name = answer ↔ d.EndsWith context met last answer := by
    intro context answer
    rw [hwalk.followAlias]
    constructor
    · rintro rfl
      obtain ⟨answer, hother⟩ := hend.exists_other context
      rwa [hother.followFrom]
    · exact EndsWith.followFrom
  refine ⟨met, last, hwalk, hwalk.length_le, hanswer, ?_⟩
  intro context target
  constructor
  · intro h
    refine ⟨?_, ?_⟩
    · cases (hanswer context _).1 h
      rfl
    · intro n hn other
      exact (followAlias_eq_ok_of_reaches (hwalk.reaches n hn)).1 h
  · rintro ⟨-, hall⟩
    have hlast := hall last hwalk.mem_last context
    exact (followAlias_eq_ok_of_reaches (hwalk.reaches last hwalk.mem_last)).2 hlast

end Document

end SchemaModel
