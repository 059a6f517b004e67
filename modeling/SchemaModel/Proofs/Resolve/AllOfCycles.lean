import SchemaModel.Proofs.Computed
import SchemaModel.Proofs.Resolve.Declarations
import SchemaModel.Proofs.Resolve.MergeWay

/-!
Components that contain themselves. An object from which a way along `allOf` leads into a cycle has
no shape. Where merging comes to a component that is already on its way (`Scope.Meets`), the names
from there on are a chain of links back to that component, which is its own parent along them. An
object has no shape exactly if this happens, or if something else is wrong where merging comes to
(`Scope.reports_allOf_cycles`). Properties, items and additional properties are no links.
-/

namespace SchemaModel

open Relation

namespace Recall

theorem error_of_once {x : Recall ObjectShape} {pointer : Pointer} {m : Memory} {e : Stop}
    (h : (once pointer x m).2 = .error e) : m.find? pointer = none ∧ (x m).2 = .error e := by
  unfold Recall.once at h
  cases hf : m.find? pointer with
  | some o =>
    rw [hf] at h
    cases h
  | none =>
    rw [hf] at h
    refine ⟨rfl, ?_⟩
    cases hx : x m with
    | mk left outcome =>
      simp only [hx] at h
      cases outcome with
      | error e => exact h
      | ok a => cases h

theorem once_of_error {x : Recall ObjectShape} {pointer : Pointer} {m : Memory} {e : Stop}
    (hnew : m.find? pointer = none) (h : (x m).2 = .error e) : (once pointer x m).2 = .error e := by
  rw [once, hnew]
  cases hx : x m with
  | mk left outcome =>
    rw [hx] at h
    cases h
    rfl

end Recall

section

variable [Libraries]

namespace Scope

variable {scope : Scope}

theorem mergeBranchesM_append {fuel : Nat} {name : String} {pointer : Pointer} {index : Nat}
    {branches rest : List Node} {o o' : ObjectShape} {m left : Memory}
    (h : scope.mergeBranchesM fuel name pointer index branches o m = (left, .ok o')) :
    scope.mergeBranchesM fuel name pointer index (branches ++ rest) o m =
      scope.mergeBranchesM fuel name pointer (index + branches.length) rest o' left := by
  induction branches generalizing index o m with
  | nil =>
    rw [mergeBranchesM] at h
    cases h
    rfl
  | cons node branches ih =>
    have hlength : index + (node :: branches).length = index + 1 + branches.length := by
      rw [List.length_cons]
      omega
    rw [List.cons_append, hlength]
    cases node with
    | ref target =>
      rw [mergeBranchesM] at h ⊢
      obtain ⟨m₁, parent, h₁, h⟩ := Recall.bind_eq_ok h
      obtain ⟨m₂, inherited, h₂, h⟩ := Recall.bind_eq_ok h
      obtain ⟨m₃, merged, h₃, h⟩ := Recall.bind_eq_ok h
      rw [Recall.bind_of_ok h₁, Recall.bind_of_ok h₂, Recall.bind_of_ok h₃]
      exact ih h
    | schema s =>
      rw [mergeBranchesM] at h ⊢
      obtain ⟨m₁, inherited, h₁, h⟩ := Recall.bind_eq_ok h
      obtain ⟨m₂, merged, h₂, h⟩ := Recall.bind_eq_ok h
      rw [Recall.bind_of_ok h₁, Recall.bind_of_ok h₂]
      exact ih h

theorem mergeBranchesM_take_succ {fuel : Nat} {name : String} {pointer : Pointer} {index : Nat}
    {branches : List Node} {node : Node} {o o' : ObjectShape} {m left after : Memory}
    (before : scope.mergeBranchesM fuel name pointer 0 (branches.take index) .empty m =
      (left, .ok o)) (branch : branches[index]? = some node)
    (h : scope.mergeBranchesM fuel name pointer index [node] o left = (after, .ok o')) :
    scope.mergeBranchesM fuel name pointer 0 (branches.take (index + 1)) .empty m =
      (after, .ok o') := by
  rw [List.take_add_one, branch, Option.toList_some, mergeBranchesM_append before]
  have hlength : 0 + (branches.take index).length = index := by
    obtain ⟨hlt, -⟩ := List.getElem?_eq_some_iff.1 branch
    rw [List.length_take]
    omega
  rw [hlength, h]

/-- Merging a site comes to one of its branches, with the memory that those before have left. -/
structure Arrives (scope : Scope) (fuel : Nat) (m : Memory) (site : Site) (index : Nat)
    (node : Node) (left : Memory) : Prop where
  before : ∃ o, scope.mergeBranchesM fuel site.name site.pointer 0
    (site.schema.allOf.take index) .empty m = (left, .ok o)
  branch : site.schema.allOf[index]? = some node

/-- Merging a site comes to merging another one, with the fuel and the memory that are there: into a
branch that is neither remembered nor a component on the way, after those before it. -/
inductive Comes (scope : Scope) : Nat → Memory → Site → Nat → Memory → Site → Prop where
  | here (fuel : Nat) (m : Memory) (site : Site) : Comes scope fuel m site fuel m site
  | component {fuel fuel' index : Nat} {m left m' : Memory} {site last : Site}
      {target parent : String} {t : Schema}
      (arrives : scope.Arrives (fuel + 1) m site index (.ref target) left)
      (leads : scope.document.resolveRef site.name target = .ok parent)
      (unmerged : left.find? (.ofComponent parent) = none)
      (unmet : parent ∉ left.merging.components)
      (definition : scope.document.definition? parent = some t)
      (inner : Comes scope fuel
        { left with merging := left.merging ++ [(.ofComponent parent, parent)] }
        (.ofComponent parent t) fuel' m' last) : Comes scope (fuel + 1) m site fuel' m' last
  | inline {fuel fuel' index : Nat} {m left m' : Memory} {site last : Site} {t : Schema}
      (arrives : scope.Arrives fuel m site index (.schema t) left)
      (unmerged : left.find? (site.branch index t).pointer = none)
      (inner : Comes scope fuel
        { left with merging := left.merging ++ [((site.branch index t).pointer, site.name)] }
        (site.branch index t) fuel' m' last) : Comes scope fuel m site fuel' m' last

/-- A branch of a site is a component on the way. What is remembered is not merged again. -/
inductive Returns (scope : Scope) : Nat → Memory → Site → MergePath → String → Prop where
  | intro {fuel index : Nat} {m left : Memory} {site : Site} {target name : String}
      (arrives : scope.Arrives (fuel + 1) m site index (.ref target) left)
      (leads : scope.document.resolveRef site.name target = .ok name)
      (unmerged : left.find? (.ofComponent name) = none)
      (met : name ∈ left.merging.components) : Returns scope (fuel + 1) m site left.merging name

/-- What a branch gives to the site, and whether it is an inline one. -/
inductive Inherits (scope : Scope) (fuel : Nat) (site : Site) (index : Nat) (left : Memory) :
    Node → ObjectShape → Bool → Prop where
  | component {target parent : String} {o : ObjectShape}
      (leads : scope.document.resolveRef site.name target = .ok parent)
      (merges : (scope.mergeComponentM fuel parent left).2 = .ok o) :
      Inherits scope fuel site index left (.ref target) o false
  | inline {t : Schema} {o : ObjectShape}
      (merges : (Recall.once (site.branch index t).pointer (Recall.whileMerging
        (site.branch index t).pointer site.name (scope.mergeSchemaM fuel site.name
          (site.branch index t).pointer t)) left).2 = .ok o) :
      Inherits scope fuel site index left (.schema t) o true

/-- Merging a site fails at the site itself, other than by a component on the way: a branch leads
nowhere, it gives a property another type than those before it, or what stands under the site's own
keywords fails on top of all branches. -/
inductive Breaks (scope : Scope) (fuel : Nat) (m : Memory) (site : Site) (error : ModelError) :
    Prop where
  | reference {index : Nat} {left : Memory} {target : String}
      (arrives : scope.Arrives fuel m site index (.ref target) left)
      (leads : scope.document.resolveRef site.name target = .error error)
  | conflict {index : Nat} {left : Memory} {node : Node} {o inherited : ObjectShape}
      {inlineBranch : Bool}
      (before : scope.mergeBranchesM fuel site.name site.pointer 0 (site.schema.allOf.take index)
        .empty m = (left, .ok o))
      (branch : site.schema.allOf[index]? = some node)
      (inherits : scope.Inherits fuel site index left node inherited inlineBranch)
      (merge : o.merge site.name inherited inlineBranch = .error error)
  | own {left : Memory} {o : ObjectShape}
      (before : scope.mergeBranchesM fuel site.name site.pointer 0 site.schema.allOf .empty m =
        (left, .ok o))
      (own : (scope.mergeOwnM site.name site.pointer site.schema o left).2 =
        .error (.failed error))

/-- Merging a site comes to a component that is on the way. -/
def Meets (scope : Scope) (fuel : Nat) (m : Memory) (site : Site) (path : MergePath)
    (name : String) : Prop :=
  ∃ fuel' m' last, scope.Comes fuel m site fuel' m' last ∧ scope.Returns fuel' m' last path name

/-- Merging a site comes to one where it fails for another reason. -/
def Elsewhere (scope : Scope) (fuel : Nat) (m : Memory) (site : Site) (error : ModelError) :
    Prop :=
  ∃ fuel' m' last, scope.Comes fuel m site fuel' m' last ∧ scope.Breaks fuel' m' last error

variable {fuel index : Nat} {m left : Memory} {site : Site} {node : Node} {e : Stop}

theorem Arrives.mem (h : scope.Arrives fuel m site index node left) : node ∈ site.schema.allOf :=
  List.mem_of_getElem? h.branch

theorem Arrives.ways (h : scope.Arrives fuel m site index node left) (hm : m.typing = []) :
    left.merging = m.merging ∧ left.typing = [] := by
  obtain ⟨o, ho⟩ := h.before
  have hleft := (merging_leaves scope).2.1 fuel site.name site.pointer 0
    (site.schema.allOf.take index) .empty m hm
  rwa [ho] at hleft

theorem arrives_first (h : site.schema.allOf[0]? = some node) :
    scope.Arrives fuel m site 0 node m where
  before := by
    refine ⟨.empty, ?_⟩
    rw [List.take_zero, mergeBranchesM]
    rfl
  branch := h

/-- If a branch cannot be merged, the site cannot. -/
theorem mergeSchemaM_error {o : ObjectShape}
    (before : scope.mergeBranchesM fuel site.name site.pointer 0 (site.schema.allOf.take index)
      .empty m = (left, .ok o))
    (branch : site.schema.allOf[index]? = some node)
    (he : ∀ rest, (scope.mergeBranchesM fuel site.name site.pointer index (node :: rest) o
      left).2 = .error e) :
    (scope.mergeSchemaM fuel site.name site.pointer site.schema m).2 = .error e := by
  obtain ⟨hlt, hnode⟩ := List.getElem?_eq_some_iff.1 branch
  have hsplit : site.schema.allOf =
      site.schema.allOf.take index ++ node :: site.schema.allOf.drop (index + 1) := by
    rw [← hnode, ← List.drop_eq_getElem_cons hlt, List.take_append_drop]
  have hlength : 0 + (site.schema.allOf.take index).length = index := by
    rw [List.length_take]
    omega
  rw [mergeSchemaM]
  refine Recall.bind_of_error ?_
  rw [hsplit, mergeBranchesM_append before, hlength]
  exact he _

theorem Arrives.error (h : scope.Arrives fuel m site index node left)
    (he : ∀ rest o, (scope.mergeBranchesM fuel site.name site.pointer index (node :: rest) o
      left).2 = .error e) :
    (scope.mergeSchemaM fuel site.name site.pointer site.schema m).2 = .error e := by
  obtain ⟨o, ho⟩ := h.before
  exact mergeSchemaM_error ho h.branch fun rest => he rest o

theorem Arrives.error_of_ref {target parent : String}
    (h : scope.Arrives fuel m site index (.ref target) left)
    (leads : scope.document.resolveRef site.name target = .ok parent)
    (he : (scope.mergeComponentM fuel parent left).2 = .error e) :
    (scope.mergeSchemaM fuel site.name site.pointer site.schema m).2 = .error e := by
  refine h.error fun rest o => ?_
  have hleads : Recall.trace (Traced.lift (Except.ok parent)) left = (left, .ok parent) := rfl
  rw [mergeBranchesM, leads, Recall.bind_of_ok hleads]
  exact Recall.bind_of_error he

/-- Where merging comes to fails, so does merging the site. -/
theorem Comes.error {fuel' : Nat} {m' : Memory} {last : Site}
    (h : scope.Comes fuel m site fuel' m' last)
    (he : (scope.mergeSchemaM fuel' last.name last.pointer last.schema m').2 = .error e) :
    (scope.mergeSchemaM fuel site.name site.pointer site.schema m).2 = .error e := by
  induction h with
  | here => exact he
  | component arrives leads unmerged unmet definition inner ih =>
    refine arrives.error_of_ref leads ?_
    rw [mergeComponentM_eq, if_neg unmet, definition]
    exact Recall.once_of_error unmerged (ih he)
  | inline arrives unmerged inner ih =>
    refine arrives.error fun rest o => ?_
    rw [mergeBranchesM]
    exact Recall.bind_of_error (Recall.once_of_error unmerged (ih he))

theorem Returns.error {path : MergePath} {name : String} (h : scope.Returns fuel m site path name) :
    (scope.mergeSchemaM fuel site.name site.pointer site.schema m).2 =
      .error (.failed (mergeCycle path name)) := by
  obtain ⟨arrives, leads, unmerged, met⟩ := h
  refine arrives.error_of_ref leads ?_
  rw [mergeComponentM_eq, if_pos met]
  exact Recall.once_of_error unmerged rfl

theorem Breaks.error {error : ModelError} (h : scope.Breaks fuel m site error) :
    (scope.mergeSchemaM fuel site.name site.pointer site.schema m).2 = .error (.failed error) := by
  cases h with
  | reference arrives leads =>
    refine arrives.error fun rest o => ?_
    rw [mergeBranchesM, leads]
    rfl
  | conflict before branch inherits merge =>
    refine mergeSchemaM_error before branch fun rest => ?_
    cases inherits with
    | component leads merges =>
      rw [mergeBranchesM, leads]
      refine (congrArg Prod.snd (Recall.bind_of_ok (Prod.ext rfl merges))).trans ?_
      rw [merge]
      rfl
    | inline merges =>
      rw [mergeBranchesM]
      refine (congrArg Prod.snd (Recall.bind_of_ok (Prod.ext rfl merges))).trans ?_
      rw [merge]
      rfl
  | own before own =>
    rw [mergeSchemaM, Recall.bind_of_ok before]
    exact own

/-- The way goes on from the one at the start to the site that merging comes to. -/
theorem Comes.way {fuel' : Nat} {m' : Memory} {last : Site}
    (h : scope.Comes fuel m site fuel' m' last) (hway : scope.Way m.merging site)
    (hm : m.typing = []) :
    m.merging <+: m'.merging ∧ scope.Way m'.merging last ∧ m'.typing = [] := by
  induction h with
  | here => exact ⟨List.prefix_rfl, hway, hm⟩
  | component arrives leads unmerged unmet definition inner ih =>
    obtain ⟨hleft, htyping⟩ := arrives.ways hm
    rw [← hleft] at hway ⊢
    obtain ⟨hgoes, hrest⟩ := ih (hway.component arrives.mem leads definition) htyping
    exact ⟨(List.prefix_append _ _).trans hgoes, hrest⟩
  | inline arrives unmerged inner ih =>
    obtain ⟨hleft, htyping⟩ := arrives.ways hm
    rw [← hleft] at hway ⊢
    obtain ⟨hgoes, hrest⟩ := ih (hway.inline arrives.branch) htyping
    exact ⟨(List.prefix_append _ _).trans hgoes, hrest⟩

/-- What is met is on the way, and named in `allOf` at its end. The way goes on from the one at the
start. -/
theorem Meets.way {path : MergePath} {name : String} (h : scope.Meets fuel m site path name)
    (hway : scope.Way m.merging site) (hm : m.typing = []) :
    m.merging <+: path ∧ name ∈ path.components ∧ ∃ last target, scope.Way path last ∧
      .ref target ∈ last.schema.allOf ∧ scope.document.resolveRef last.name target = .ok name := by
  obtain ⟨_, _, last, hcomes, hreturns⟩ := h
  obtain ⟨hgoes, hlast, htyping⟩ := hcomes.way hway hm
  obtain @⟨_, _, _, _, _, target, _, arrives, leads, -, met⟩ := hreturns
  obtain ⟨hleft, -⟩ := arrives.ways htyping
  rw [← hleft] at hgoes hlast
  exact ⟨hgoes, met, last, target, hlast, arrives.mem, leads⟩

/-- Merging a site comes to a component that is on the way, or fails elsewhere. -/
def Fails (scope : Scope) (fuel : Nat) (m : Memory) (site : Site) (error : ModelError) : Prop :=
  scope.Elsewhere fuel m site error ∨
    ∃ path name, scope.Meets fuel m site path name ∧ error = mergeCycle path name

theorem Fails.error {error : ModelError} (h : scope.Fails fuel m site error) :
    (scope.mergeSchemaM fuel site.name site.pointer site.schema m).2 = .error (.failed error) := by
  rcases h with ⟨_, _, _, hcomes, hbreaks⟩ | ⟨path, name, ⟨_, _, _, hcomes, hreturns⟩, rfl⟩
  · exact hcomes.error hbreaks.error
  · exact hcomes.error hreturns.error

theorem Breaks.fails {error : ModelError} (h : scope.Breaks fuel m site error) :
    scope.Fails fuel m site error := .inl ⟨_, _, _, .here _ _ _, h⟩

theorem Returns.fails {path : MergePath} {name : String} (h : scope.Returns fuel m site path name) :
    scope.Fails fuel m site (mergeCycle path name) :=
  .inr ⟨path, name, ⟨_, _, _, .here _ _ _, h⟩, rfl⟩

/-- What fails where merging comes to next fails from here. -/
theorem Fails.of_comes {fuel' : Nat} {m' : Memory} {next : Site} {error : ModelError}
    (h : scope.Fails fuel' m' next error)
    (hcomes : ∀ {fuel'' m'' last}, scope.Comes fuel' m' next fuel'' m'' last →
      scope.Comes fuel m site fuel'' m'' last) : scope.Fails fuel m site error := by
  rcases h with ⟨_, _, _, hlast, hbreaks⟩ | ⟨path, name, ⟨_, _, _, hlast, hreturns⟩, he⟩
  · exact .inl ⟨_, _, _, hcomes hlast, hbreaks⟩
  · exact .inr ⟨path, name, ⟨_, _, _, hcomes hlast, hreturns⟩, he⟩

/-- A walk stops for lack of fuel, or for such an error. -/
def Stops (reason : Stop) (fails : ModelError → Prop) : Prop :=
  reason = .unfinished ∨ ∃ error, reason = .failed error ∧ fails error

omit [Libraries] in
theorem Stops.imp {fails fails' : ModelError → Prop} (h : Stops e fails)
    (himp : ∀ error, fails error → fails' error) : Stops e fails' := by
  rcases h with h | ⟨error, he, h⟩
  · exact .inl h
  · exact .inr ⟨error, he, himp error h⟩

theorem Breaks.stops {error : ModelError} (h : scope.Breaks fuel m site error) :
    Stops (.failed error) (scope.Fails fuel m site) := .inr ⟨error, rfl, h.fails⟩

/-- A branch that names a component fails where it returns to it, or where this is merged. -/
theorem mergeComponentM_stops {target name : String}
    (hinside : ∀ t m e, (scope.mergeSchemaM fuel name (.ofComponent name) t m).2 = .error e →
      Stops e (scope.Fails fuel m (.ofComponent name t)))
    (h : (scope.mergeComponentM (fuel + 1) name left).2 = .error e)
    (arrives : scope.Arrives (fuel + 1) m site index (.ref target) left)
    (leads : scope.document.resolveRef site.name target = .ok name) :
    Stops e (scope.Fails (fuel + 1) m site) := by
  obtain ⟨t, ht, -⟩ := (Document.canonical_of_resolveRef leads).definition
  rw [mergeComponentM_eq] at h
  obtain ⟨unmerged, h⟩ := Recall.error_of_once h
  split at h
  · rename_i met
    cases h
    exact .inr ⟨_, rfl, (Returns.intro arrives leads unmerged met).fails⟩
  · rename_i unmet
    rw [ht] at h
    exact (hinside t _ e h).imp fun error hfails =>
      hfails.of_comes (.component arrives leads unmerged unmet ht)

/-- Merging fails for nothing else. -/
theorem merging_stops (scope : Scope) :
    (∀ fuel name pointer s, ∀ inline m e, (scope.mergeSchemaM fuel name pointer s m).2 = .error e →
      Stops e (scope.Fails fuel m ⟨name, pointer, inline, s⟩)) ∧
    (∀ fuel name pointer index branches o, ∀ inline s m left e,
      scope.mergeBranchesM fuel name pointer 0 (s.allOf.take index) .empty m = (left, .ok o) →
      s.allOf.drop index = branches →
      (scope.mergeBranchesM fuel name pointer index branches o left).2 = .error e →
      Stops e (scope.Fails fuel m ⟨name, pointer, inline, s⟩)) ∧
    ∀ fuel name, ∀ m site index target left e,
      (scope.mergeComponentM fuel name left).2 = .error e →
      scope.Arrives fuel m site index (.ref target) left →
      scope.document.resolveRef site.name target = .ok name →
      Stops e (scope.Fails fuel m site) := by
  apply mergeSchemaM.mutual_induct
  case case1 =>
    intro fuel name pointer s ih inline m e h
    rw [mergeSchemaM] at h
    rcases Recall.error_of_bind h with hbranches | ⟨left, o, before, hown⟩
    · refine ih inline s m m e ?_ rfl hbranches
      rw [List.take_zero, mergeBranchesM]
      rfl
    · cases e with
      | unfinished => exact .inl rfl
      | failed error => exact (Breaks.own before hown).stops
  case case2 =>
    intro fuel name pointer index o inline s m left e before hd h
    rw [mergeBranchesM] at h
    cases h
  case case3 =>
    intro fuel name pointer index o target rest ihc ihr inline s m left e before hd h
    obtain ⟨hbranch, hrest⟩ := of_drop_eq_cons hd
    have harrives : scope.Arrives fuel m ⟨name, pointer, inline, s⟩ index (.ref target) left :=
      ⟨⟨o, before⟩, hbranch⟩
    rw [mergeBranchesM] at h
    rcases Recall.error_of_bind h with hlead | ⟨m₁, parent, h₁, hnext⟩
    · obtain ⟨error, hr, rfl⟩ := Recall.error_of_trace hlead
      exact (Breaks.reference harrives hr).stops
    obtain ⟨leads, rfl⟩ := Recall.ok_of_lift h₁
    rcases Recall.error_of_bind hnext with hparent | ⟨m₂, inherited, h₂, hnext₂⟩
    · exact ihc parent _ _ _ _ _ e hparent harrives leads
    rcases Recall.error_of_bind hnext₂ with hmerge | ⟨m₃, merged, h₃, hnext₃⟩
    · obtain ⟨error, hconflict, rfl⟩ := Recall.error_of_trace hmerge
      have hinherits : scope.Inherits fuel ⟨name, pointer, inline, s⟩ index m₁ (.ref target)
        inherited false := .component leads (congrArg Prod.snd h₂)
      exact (Breaks.conflict before hbranch hinherits hconflict).stops
    -- the branch is merged, so the next one is arrived at
    refine ihr parent merged inline s m m₃ e (mergeBranchesM_take_succ before hbranch ?_) hrest
      hnext₃
    rw [mergeBranchesM, Recall.bind_of_ok h₁, Recall.bind_of_ok h₂, Recall.bind_of_ok h₃,
      mergeBranchesM]
    rfl
  case case4 =>
    intro fuel name pointer index o inner rest at_ ihs ihr inline s m left e before hd h
    obtain ⟨hbranch, hrest⟩ := of_drop_eq_cons hd
    have harrives : scope.Arrives fuel m ⟨name, pointer, inline, s⟩ index (.schema inner) left :=
      ⟨⟨o, before⟩, hbranch⟩
    rw [mergeBranchesM] at h
    rcases Recall.error_of_bind h with hinner | ⟨m₁, inherited, h₁, hnext⟩
    · obtain ⟨unmerged, hmerge⟩ := Recall.error_of_once hinner
      exact (ihs inline _ e hmerge).imp fun error hfails =>
        hfails.of_comes (.inline harrives unmerged)
    rcases Recall.error_of_bind hnext with hmerge | ⟨m₂, merged, h₂, hnext₂⟩
    · obtain ⟨error, hconflict, rfl⟩ := Recall.error_of_trace hmerge
      have hinherits : scope.Inherits fuel ⟨name, pointer, inline, s⟩ index left (.schema inner)
        inherited true := .inline (congrArg Prod.snd h₁)
      exact (Breaks.conflict before hbranch hinherits hconflict).stops
    refine ihr inherited merged inline s m m₂ e (mergeBranchesM_take_succ before hbranch ?_) hrest
      hnext₂
    rw [mergeBranchesM, Recall.bind_of_ok h₁, Recall.bind_of_ok h₂, mergeBranchesM]
    rfl
  case case5 =>
    intro name m site index target left e h
    rw [mergeComponentM] at h
    cases h
    exact fun _ _ => .inl rfl
  case case6 =>
    intro name fuel ih m site index target left e h arrives leads
    exact mergeComponentM_stops (fun t => ih t false) h arrives leads

/-- An object of the document, and a memory that outlining some schemas leaves. -/
structure Next (scope : Scope) (m : Memory) (site : Site) : Prop where
  reached : scope.Reached m
  placed : scope.placeAt site.pointer = some (.owner site.name site.schema)
  object : site.schema.category = .object

/-- An object that is not remembered starts the way, and merging it comes to a component on it. -/
structure Catches (scope : Scope) (m : Memory) (site : Site) (path : MergePath) (name : String) :
    Prop where
  unmerged : m.find? site.pointer = none
  meets : scope.Meets scope.depth { m with merging := m.merging ++ [(site.pointer, site.name)] }
    site path name

/-- What an object becomes is looked for, and it fails other than by a component on the way: where
merging comes to, or for a member of the union that leads nowhere. -/
inductive Misses (scope : Scope) (m : Memory) (site : Site) (error : ModelError) : Prop where
  | merging (unmerged : m.find? site.pointer = none)
      (elsewhere : scope.Elsewhere scope.depth
        { m with merging := m.merging ++ [(site.pointer, site.name)] } site error)
  | member {left : Memory} {o : ObjectShape}
      (merges : Recall.once site.pointer (Recall.whileMerging site.pointer site.name
        (scope.mergeSchemaM scope.depth site.name site.pointer site.schema)) m = (left, .ok o))
      (discriminated : o.discriminator.isNone = false)
      (leads : (scope.unionMembers site.name 0 o.unionMembers
        (site.schema.oneOf ++ site.schema.anyOf)).outcome = .error error)

theorem objectShapeM_error {error : ModelError} (unmerged : m.find? site.pointer = none)
    (h : scope.Fails scope.depth { m with merging := m.merging ++ [(site.pointer, site.name)] }
      site error) :
    (scope.objectShapeM site.name site.pointer site.schema m).2 = .error (.failed error) := by
  rw [objectShapeM]
  exact Recall.bind_of_error (Recall.once_of_error unmerged h.error)

theorem Catches.error {path : MergePath} {name : String} (h : scope.Catches m site path name) :
    (scope.objectShapeM site.name site.pointer site.schema m).2 =
      .error (.failed (mergeCycle path name)) :=
  objectShapeM_error h.unmerged (.inr ⟨path, name, h.meets, rfl⟩)

theorem Misses.error {error : ModelError} (h : scope.Misses m site error) :
    (scope.objectShapeM site.name site.pointer site.schema m).2 = .error (.failed error) := by
  cases h with
  | merging unmerged elsewhere => exact objectShapeM_error unmerged (.inl elsewhere)
  | member merges discriminated leads =>
    rw [objectShapeM, Recall.bind_of_ok merges, if_neg (by simp [discriminated])]
    refine Recall.bind_of_error ?_
    rw [Recall.trace, leads]
    rfl

/-- What an object becomes is always found, or not, in the end. -/
theorem Next.ended (h : scope.Next m site) :
    (scope.objectShapeM site.name site.pointer site.schema m).2 ≠ .error .unfinished := by
  intro hunfinished
  -- what is found with memory is what is found without it, and that is never left unfinished
  obtain ⟨x, -, hrecalled⟩ := objectShapeM_recalled h.reached.trusted h.placed
  have houtcome := hrecalled.outcome
  rw [hunfinished] at houtcome
  cases hx : (x []).outcome with
  | error error =>
    rw [hx] at houtcome
    cases houtcome
  | ok o =>
    rw [hx] at houtcome
    cases houtcome

/-- Finding what an object becomes fails for a cycle, or for what `Misses` says, and for nothing
else. -/
theorem Next.error_iff (h : scope.Next m site) {reason : Stop} :
    (scope.objectShapeM site.name site.pointer site.schema m).2 = .error reason ↔
      ∃ error, reason = .failed error ∧ (scope.Misses m site error ∨
        ∃ path name, scope.Catches m site path name ∧ error = mergeCycle path name) := by
  constructor
  · intro hreason
    have hended := h.ended
    rw [objectShapeM] at hreason hended
    rcases Recall.error_of_bind hreason with hmerge | ⟨left, o, merges, hmembers⟩
    · obtain ⟨unmerged, hmerge⟩ := Recall.error_of_once hmerge
      have hstops := (merging_stops scope).1 scope.depth site.name site.pointer site.schema
        site.inline _ reason hmerge
      rcases hstops with rfl | ⟨error, he, helsewhere | ⟨path, name, hmeets, hcycle⟩⟩
      · exact absurd hreason hended
      · exact ⟨error, he, .inl (.merging unmerged helsewhere)⟩
      · exact ⟨error, he, .inr ⟨path, name, ⟨unmerged, hmeets⟩, hcycle⟩⟩
    · split at hmembers
      · cases hmembers
      · rename_i hdiscriminated
        rcases Recall.error_of_bind hmembers with hunion | ⟨_, _, -, hdone⟩
        · obtain ⟨error, leads, he⟩ := Recall.error_of_trace hunion
          exact ⟨error, he, .inl (.member merges (Bool.eq_false_iff.2 hdiscriminated) leads)⟩
        · cases hdone
  · rintro ⟨error, rfl, hmisses | ⟨path, name, hcatches, rfl⟩⟩
    · exact hmisses.error
    · exact hcatches.error

/-- A chain of links from a component back to it, which is its own parent along some of them. -/
structure Closes (d : Document) (name : String) (chain : List String) : Prop where
  first : chain.head? = some name
  last : chain.getLast? = some name
  links : chain.IsChain (Link d)
  cycle : TransGen d.Parent name name

theorem Catches.closes {path : MergePath} {name : String} (h : scope.Catches m site path name)
    (hm : scope.Next m site) :
    Closes scope.document name (path.since name ++ [name]) ∧
      scope.document.EntersCycle name ∧
      ∀ c, site.pointer = .ofComponent c → scope.document.EntersCycle c := by
  have hon := hm.reached.trusted.on
  have hstart : scope.Way (m.merging ++ [(site.pointer, site.name)]) site := by
    rw [hon.merging]
    exact .start hm.placed hm.object
  obtain ⟨hgoes, hmem, last, target, hway, branch, leads⟩ := h.meets.way hstart hon.typing
  have hlinked := hway.linked hmem
  have hparent := hlinked.parent branch leads
  have hcycle : TransGen scope.document.Parent name name := .tail' hlinked.parents hparent
  have hsteps : TransGen scope.document.AllOfStep name name :=
    hcycle.lift' id fun _ _ h => h.steps
  refine ⟨⟨?_, List.getLast?_concat, ?_, hcycle⟩, ⟨name, .refl, hsteps⟩, ?_⟩
  · rw [List.head?_append, hlinked.first]
    rfl
  · rw [List.isChain_append]
    refine ⟨hlinked.chain, List.isChain_singleton _, ?_⟩
    rw [hlinked.last]
    intro x hx y hy
    cases hx
    cases hy
    exact .inr hparent
  · intro c hc
    have hbefore : c ∈ path.components := by
      refine MergePath.mem_components_iff.2 ⟨site.name, hgoes.subset ?_⟩
      rw [hc]
      exact List.mem_append_right _ (List.mem_singleton.2 rfl)
    have hreach := ReflTransGen.tail (hway.linked hbefore).parents hparent
    exact ⟨name, hreach.lift' id fun _ _ h => h.steps.to_reflTransGen, hsteps⟩

end Scope

/-- An object from which a way along `allOf` leads into a cycle has a shape in no resolver that has
resolved some components, whether they could be resolved or not, and in no pass. Where merging an
object comes to a component on its way, the chain that is reported leads from this component along
`allOf` back to it. An object fails for nothing else but what is wrong where merging it comes to
(`Scope.Misses`). -/
theorem Scope.reports_allOf_cycles (scope : Scope) :
    (∀ name s, scope.document.definition? name = some s → s.category = .object →
      scope.document.EntersCycle name →
      (∀ names : List String, ∃ e, ((names.foldl (fun r name => (r.resolveComponent name).1)
        (Resolver.start scope)).resolveComponent name).2 = .error (.failed e)) ∧
      ∀ order r, Resolver.pass scope order = .ok r → ¬ r.Knows (.ofComponent name)) ∧
    ∀ m site, scope.Next m site →
      (∀ path name, scope.Catches m site path name → ∃ chain,
        (scope.objectShapeM site.name site.pointer site.schema m).2 = .error (.failed
          (.unresolvable name (Reference.ofComponent name) (.cycle chain))) ∧
        Closes scope.document name chain ∧ scope.document.EntersCycle name ∧
        ∀ c, site.pointer = .ofComponent c → scope.document.EntersCycle c) ∧
      ∀ reason, (scope.objectShapeM site.name site.pointer site.schema m).2 = .error reason ↔
        ∃ error, reason = .failed error ∧ (scope.Misses m site error ∨
          ∃ path name, scope.Catches m site path name ∧ error = mergeCycle path name) := by
  refine ⟨fun name s hs hc hcycle => ⟨fun names => ?_, fun order r h => ?_⟩,
    fun m site hnext => ⟨fun path name hcatches => ?_, fun reason => hnext.error_iff⟩⟩
  · have hsteady := Resolver.steady_foldl names (Resolver.steady_start scope)
    exact hsteady.resolveComponent_of_entersCycle hs hc hcycle
  · exact Resolver.not_knows_of_entersCycle h hs hc hcycle
  · exact ⟨_, hcatches.error, hcatches.closes hnext⟩

end

/-- Two components that contain each other, one in an inline branch and by another name. -/
def eachOther : Document :=
  ⟨"3.0.3", default,
    [("A", .schema { Schema.empty with
        allOf := [.schema { Schema.empty with allOf := [.ref "#/components/schemas/Other"] }] }),
      ("Other", .ref "#/components/schemas/B"),
      ("B", .schema { Schema.empty with
        allOf := [.ref "#/components/schemas/A",
          .schema { Schema.empty with required := ["b"] }] })], by decide⟩

example : ((Resolver.start ⟨eachOther, []⟩).resolveComponent "A").2 = .error (.failed
    (.unresolvable "A" "#/components/schemas/A" (.cycle ["A", "A", "B", "A"]))) := by cbv

theorem eachOther_entersCycle : eachOther.EntersCycle "A" := by
  have hinline : eachOther.AllOfStep "A" "Other" :=
    .inr ⟨⟨_, rfl, rfl⟩, _, _, rfl,
      .branch (List.mem_singleton.2 rfl) (.branch (List.mem_singleton.2 rfl) .self), by cbv⟩
  have hother : eachOther.AllOfStep "Other" "B" := .inl ⟨_, _, rfl, rfl, by cbv⟩
  have hback : eachOther.AllOfStep "B" "A" :=
    .inr ⟨⟨_, rfl, rfl⟩, _, _, rfl, .branch List.mem_cons_self .self, by cbv⟩
  exact ⟨"A", .refl, .tail (.tail (.single hinline) hother) hback⟩

theorem reports_allOf_cycles_each_other : eachOther.EntersCycle "A" ∧
    (∃ e, ((Resolver.start ⟨eachOther, []⟩).resolveComponent "A").2 = .error (.failed e)) ∧
    ∃ s chain, (Scope.objectShapeM ⟨eachOther, []⟩ "A" (.ofComponent "A") s .empty).2 =
        .error (.failed (.unresolvable "A" "#/components/schemas/A" (.cycle chain))) ∧
      Scope.Closes eachOther "A" chain := by
  have hreports := Scope.reports_allOf_cycles ⟨eachOther, []⟩
  obtain ⟨hfails, -⟩ := hreports.1 "A" _ rfl rfl eachOther_entersCycle
  refine ⟨eachOther_entersCycle, hfails [], ?_⟩
  -- along the inline branch and to `B`, where `A` is named again
  let path : Scope.MergePath := [(.ofComponent "A", "A"),
    ((Pointer.ofComponent "A").push (.allOf 0), "A"), (.ofComponent "B", "B")]
  have hcatches : ∃ t, Scope.Next ⟨eachOther, []⟩ .empty (.ofComponent "A" t) ∧
      Scope.Catches ⟨eachOther, []⟩ .empty (.ofComponent "A" t) path "A" := by
    refine ⟨_, ⟨.empty, rfl, rfl⟩, rfl, ?_⟩
    exact ⟨_, _, _, .inline (Scope.arrives_first rfl) rfl (.component (Scope.arrives_first rfl)
      (by cbv) rfl (by decide) rfl (.here _ _ _)),
      .intro (Scope.arrives_first rfl) (by cbv) rfl (by decide)⟩
  obtain ⟨t, hnext, hcatches⟩ := hcatches
  obtain ⟨chain, herror, hcloses, -⟩ := (hreports.2 _ _ hnext).1 _ _ hcatches
  exact ⟨t, chain, herror, hcloses⟩

end SchemaModel
