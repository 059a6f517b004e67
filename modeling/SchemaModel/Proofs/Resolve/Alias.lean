import SchemaModel.Proofs.Resolve.Equations
import SchemaModel.Proofs.Traced

/-!
What following aliases finds: a component that is no alias. Such a component stands for itself,
whatever the context in which it is named.
-/

namespace SchemaModel

namespace Document

/-- A component that is no alias of another one. -/
def Canonical (d : Document) (name : String) : Prop :=
  ∃ node, d.find? name = some node ∧ node.aliasTarget? = none

theorem canonical_of_followFrom {d : Document} {context : String} {chain : List String}
    {current target : String} (h : d.followFrom context chain current = .ok target) :
    d.Canonical target := by
  fun_induction followFrom d context chain current with
  | case1 chain current hf => cases h
  | case2 chain current node hf ha =>
    cases h
    exact ⟨node, hf, ha⟩
  | case3 => cases h
  | case4 => cases h
  | case5 chain current node hf path ha next hn hc ih => exact ih h

theorem canonical_of_followAlias {d : Document} {context name target : String}
    (h : d.followAlias context name = .ok target) : d.Canonical target :=
  canonical_of_followFrom h

theorem canonical_of_resolveRef {d : Document} {context path target : String}
    (h : d.resolveRef context path = .ok target) : d.Canonical target := by
  unfold resolveRef at h
  split at h
  · cases h
  · exact canonical_of_followAlias h

theorem Canonical.followAlias {d : Document} {name : String} (h : d.Canonical name)
    (context : String) : d.followAlias context name = .ok name := by
  obtain ⟨node, hf, ha⟩ := h
  rw [Document.followAlias, followFrom_eq, hf]
  simp only [ha]

theorem Canonical.definition {d : Document} {name : String} (h : d.Canonical name) :
    ∃ s, d.definition? name = some s ∧ (Node.schema s).aliasTarget? = none := by
  obtain ⟨node, hf, ha⟩ := h
  cases node with
  | ref path => cases ha
  | schema s => exact ⟨s, by simp [definition?, hf], ha⟩

theorem Canonical.mem_names {d : Document} {name : String} (h : d.Canonical name) :
    name ∈ d.names := by
  obtain ⟨node, hf, -⟩ := h
  exact mem_names_of_find hf

theorem definition_eq_ok_iff {d : Document} {name : String} {s : Schema} :
    d.definition name = .ok s ↔ d.definition? name = some s := by
  unfold definition
  cases d.definition? name with
  | none => simp
  | some t => simp

end Document

end SchemaModel
