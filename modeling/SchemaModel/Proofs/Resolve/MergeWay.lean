import Mathlib.Data.List.Chain
import Mathlib.Data.List.TakeWhile
import SchemaModel.Proofs.Resolve.AllOfSteps
import SchemaModel.Proofs.Resolve.Memory
import SchemaModel.Proofs.Resolve.Parts

/-!
The way of merging. It leads from an object along branches of `allOf` to the schema that is being
merged (`Scope.Way`), and merging leaves it as it found it, also where it fails
(`Scope.merging_leaves`). An inline branch stands on the way under the name of the component that
it is in. So the names from a component on are links: each is its neighbour, or names it in `allOf`
(`Scope.Way.linked`).
-/

namespace SchemaModel

open Relation

namespace Recall

variable {α β : Type}

/-- The ways are left as they were, if no type is being found. -/
def Leaves (x : Recall α) : Prop :=
  ∀ m, m.typing = [] → (x m).1.merging = m.merging ∧ (x m).1.typing = []

theorem Traces.leaves {x : Recall α} {y : Traced α} (h : Traces [] x y) : Leaves x := by
  intro m hm
  rw [h m hm]
  exact ⟨rfl, hm⟩

theorem leaves_stop (reason : Stop) : Leaves (stop reason : Recall α) := fun _ hm => ⟨rfl, hm⟩

theorem Leaves.bind {x : Recall α} {f : α → Recall β} (hx : Leaves x) (hf : ∀ a, Leaves (f a)) :
    Leaves (x >>= f) := by
  intro m hm
  rw [bind_apply]
  obtain ⟨hmerging, htyping⟩ := hx m hm
  cases hxm : x m with
  | mk left outcome =>
    rw [hxm] at hmerging htyping
    cases outcome with
    | error e => exact ⟨hmerging, htyping⟩
    | ok a =>
      obtain ⟨hmerging', htyping'⟩ := hf a left htyping
      exact ⟨hmerging'.trans hmerging, htyping'⟩

theorem Leaves.whileMerging {x : Recall α} (hx : Leaves x) (pointer : Pointer) (name : String) :
    Leaves (whileMerging pointer name x) := by
  intro m hm
  obtain ⟨hmerging, htyping⟩ := hx { m with merging := m.merging ++ [(pointer, name)] } hm
  refine ⟨?_, htyping⟩
  change (x { m with merging := m.merging ++ [(pointer, name)] }).1.merging.dropLast = m.merging
  rw [hmerging, List.dropLast_concat]

theorem Leaves.once {x : Recall ObjectShape} (hx : Leaves x) (pointer : Pointer) :
    Leaves (once pointer x) := by
  intro m hm
  unfold Recall.once
  cases m.find? pointer with
  | some o => exact ⟨rfl, hm⟩
  | none =>
    have hleft := hx m hm
    cases hxm : x m with
    | mk left outcome =>
      rw [hxm] at hleft
      cases outcome with
      | error e => exact hleft
      | ok a => exact hleft

end Recall

namespace Scope

theorem merging_leaves [Libraries] (scope : Scope) :
    (∀ fuel name pointer s, Recall.Leaves (scope.mergeSchemaM fuel name pointer s)) ∧
    (∀ fuel name pointer index branches o,
      Recall.Leaves (scope.mergeBranchesM fuel name pointer index branches o)) ∧
    ∀ fuel name, Recall.Leaves (scope.mergeComponentM fuel name) := by
  apply mergeSchemaM.mutual_induct
  case case1 =>
    intro fuel name pointer s ih
    rw [mergeSchemaM]
    exact ih.bind fun o => (mergeOwnM_traces name pointer s o).leaves
  case case2 =>
    intro fuel name pointer index o
    rw [mergeBranchesM]
    exact (Recall.traces_pure o).leaves
  case case3 =>
    intro fuel name pointer index o target rest ihc ihr
    rw [mergeBranchesM]
    refine (Recall.traces_trace _).leaves.bind fun parent => (ihc parent).bind fun inherited => ?_
    exact (Recall.traces_trace _).leaves.bind fun o => ihr parent o
  case case4 =>
    intro fuel name pointer index o inner rest at_ ihs ihr
    rw [mergeBranchesM]
    refine ((ihs.whileMerging _ _).once _).bind fun inherited => ?_
    exact (Recall.traces_trace _).leaves.bind fun o => ihr inherited o
  case case5 =>
    intro name
    rw [mergeComponentM]
    exact Recall.leaves_stop _
  case case6 =>
    intro name fuel ih m hm
    rw [mergeComponentM_eq]
    refine Recall.Leaves.once ?_ _ m hm
    split
    · exact Recall.leaves_stop _
    · split
      · exact Recall.leaves_stop _
      · exact (ih _).whileMerging _ _

end Scope

namespace Scope

variable {scope : Scope}

theorem MergePath.mem_components_iff {path : MergePath} {name : String} :
    name ∈ path.components ↔ ∃ label, (Pointer.ofComponent name, label) ∈ path := by
  rw [components, List.mem_filterMap]
  constructor
  · rintro ⟨⟨pointer, label⟩, hmem, h⟩
    split at h
    · rename_i hsteps
      cases h
      refine ⟨label, ?_⟩
      rwa [Pointer.ofComponent, ← List.isEmpty_iff.1 hsteps]
    · cases h
  · rintro ⟨label, hmem⟩
    exact ⟨_, hmem, rfl⟩

/-- The way to a site that is being merged: from an object along branches of `allOf`. -/
inductive Way [Libraries] (scope : Scope) : MergePath → Site → Prop where
  | start {site : Site} (placed : scope.placeAt site.pointer = some (.owner site.name site.schema))
      (object : site.schema.category = .object) : Way scope [(site.pointer, site.name)] site
  | inline {path : MergePath} {site : Site} {index : Nat} {t : Schema} (way : Way scope path site)
      (branch : site.schema.allOf[index]? = some (.schema t)) :
      Way scope (path ++ [((site.branch index t).pointer, site.name)]) (site.branch index t)
  | component {path : MergePath} {site : Site} {target name : String} {t : Schema}
      (way : Way scope path site) (branch : .ref target ∈ site.schema.allOf)
      (leads : scope.document.resolveRef site.name target = .ok name)
      (definition : scope.document.definition? name = some t) :
      Way scope (path ++ [(.ofComponent name, name)]) (.ofComponent name t)

/-- The names on the way from a component on. -/
def MergePath.since (path : MergePath) (name : String) : List String :=
  (path.dropWhile fun e => e.1 != .ofComponent name).map Prod.snd

/-- Two names that follow each other on a way: of a schema and an inline branch of it, or of a
component and one that it names in `allOf`. -/
def Link (d : Document) (name next : String) : Prop := name = next ∨ d.Parent name next

/-- From a component on the way there are links to the site at hand, which stands in the component
of its name. -/
structure Linked (d : Document) (path : MergePath) (site : Site) (name : String) : Prop where
  first : (path.since name).head? = some name
  last : (path.since name).getLast? = some site.name
  chain : (path.since name).IsChain (Link d)
  parents : ReflTransGen d.Parent name site.name
  canonical : d.Canonical site.name
  within : ∃ s, d.definition? site.name = some s ∧
    ∀ reference, (Node.schema site.schema).Names reference → (Node.schema s).Names reference

theorem MergePath.since_append {path : MergePath} {name first : String}
    (h : (path.since name).head? = some first) (more : MergePath) :
    MergePath.since (path ++ more) name = path.since name ++ more.map Prod.snd := by
  have hne : ¬ (path.dropWhile fun e => e.1 != .ofComponent name).isEmpty := by
    intro hempty
    rw [since, List.isEmpty_iff.1 hempty] at h
    cases h
  rw [since, List.dropWhile_append, if_neg hne, List.map_append]
  rfl

theorem MergePath.since_self {path : MergePath} {name : String} (h : name ∉ path.components) :
    MergePath.since (path ++ [(.ofComponent name, name)]) name = [name] := by
  have hall : path.dropWhile (fun e => e.1 != .ofComponent name) = [] := by
    rw [List.dropWhile_eq_nil_iff]
    rintro ⟨pointer, label⟩ hmem
    simp only [bne_iff_ne, ne_eq]
    rintro rfl
    exact h (mem_components_iff.2 ⟨label, hmem⟩)
  rw [since, List.dropWhile_append, hall]
  simp

theorem Linked.parent {d : Document} {path : MergePath} {site : Site} {name target parent : String}
    (h : Linked d path site name) (branch : .ref target ∈ site.schema.allOf)
    (leads : d.resolveRef site.name target = .ok parent) : d.Parent site.name parent := by
  obtain ⟨s, hs, hwithin⟩ := h.within
  exact ⟨h.canonical, s, target, hs, hwithin target (.branch branch .self), leads⟩

/-- One more name on the way. -/
theorem Linked.append {d : Document} {path : MergePath} {site : Site} {name : String}
    (h : Linked d path site name) (next : Site) (pointer : Pointer)
    (hlink : Link d site.name next.name)
    (hc : d.Canonical next.name) (hwithin : ∃ s, d.definition? next.name = some s ∧
      ∀ reference, (Node.schema next.schema).Names reference → (Node.schema s).Names reference) :
    Linked d (path ++ [(pointer, next.name)]) next name := by
  have hsince := MergePath.since_append h.first [(pointer, next.name)]
  constructor
  · rw [hsince, List.head?_append, h.first]
    rfl
  · rw [hsince]
    exact List.getLast?_concat
  · rw [hsince, List.isChain_append]
    refine ⟨h.chain, List.isChain_singleton _, ?_⟩
    rw [h.last]
    intro x hx y hy
    cases hx
    cases hy
    exact hlink
  · rcases hlink with heq | hparent
    · exact heq ▸ h.parents
    · exact h.parents.tail hparent
  · exact hc
  · exact hwithin

/-- A component is linked to itself where it is first met. -/
theorem linked_self {d : Document} {path : MergePath} (site : Site)
    (hsince : path.since site.name = [site.name]) (hc : d.Canonical site.name)
    (hs : d.definition? site.name = some site.schema) : Linked d path site site.name where
  first := by rw [hsince]; rfl
  last := by rw [hsince]; rfl
  chain := by rw [hsince]; exact List.isChain_singleton _
  parents := .refl
  canonical := hc
  within := ⟨_, hs, fun _ hnames => hnames⟩

theorem Way.linked [Libraries] {path : MergePath} {site : Site} (h : scope.Way path site)
    {name : String} (hn : name ∈ path.components) : Linked scope.document path site name := by
  induction h with
  | @start site placed object =>
    obtain ⟨label, hmem⟩ := MergePath.mem_components_iff.1 hn
    obtain ⟨hpointer, -⟩ := Prod.mk.inj (List.mem_singleton.1 hmem)
    rw [← hpointer] at placed ⊢
    obtain ⟨rfl, hs⟩ := definition?_of_placeAt placed
    exact linked_self site (@MergePath.since_self [] site.name List.not_mem_nil)
      (canonical_of_object hs object) hs
  | @inline path site index t way branch ih =>
    rw [MergePath.components_append] at hn
    have hinside : MergePath.components [((site.branch index t).pointer, site.name)] = [] := by
      simp [MergePath.components, Site.branch, Pointer.push]
    rw [hinside, List.append_nil] at hn
    have hlinked := ih hn
    refine hlinked.append (site.branch index t) _ (.inl rfl) hlinked.canonical ?_
    obtain ⟨s, hs, hwithin⟩ := hlinked.within
    exact ⟨s, hs, fun reference hnames =>
      hwithin reference (.branch (List.mem_of_getElem? branch) hnames)⟩
  | @component path site target parent t way branch leads definition ih =>
    have hcanonical := Document.canonical_of_resolveRef leads
    -- the links start where the component is first met
    by_cases hbefore : name ∈ path.components
    · have hlinked := ih hbefore
      exact hlinked.append (.ofComponent parent t) _ (.inr (hlinked.parent branch leads)) hcanonical
        ⟨t, definition, fun _ hnames => hnames⟩
    · rw [MergePath.components_append] at hn
      obtain rfl := List.mem_singleton.1 ((List.mem_append.1 hn).resolve_left hbefore)
      exact linked_self (.ofComponent name t) (MergePath.since_self hbefore) hcanonical
        definition

end Scope

end SchemaModel
