import Mathlib.Logic.Relation
import SchemaModel.Proofs.Resolve.Memory
import SchemaModel.Proofs.Resolve.Visit

/-!
What a resolver may do in one step, and what all its runs have in common. Whatever the order of
the steps, a resolver knows visited sites only, each with its shape, and remembers nothing wrong
(`Sound`); and whatever a known site brings with it is known or waits (`Covers`).
-/

namespace SchemaModel

namespace Resolver

variable {scope : Scope} {order : List String} {r r' : Resolver}

def Knows (r : Resolver) (pointer : Pointer) : Prop := ∃ s, (pointer, s) ∈ r.resolved

def note (r : Resolver) (warnings : List Warning) : Resolver :=
  { r with warnings := noteAll r.warnings warnings }

section

variable [Libraries]

/-- One step: follow a name, resolve a site from its own outline or from the component that it
shares its shape with, leave out an inline schema that is known by now, or remember what has been
merged. -/
inductive Step (scope : Scope) (order : List String) : Resolver → Resolver → Prop where
  | follow {r : Resolver} {name target : String} (mem : name ∈ order)
      (follows : scope.document.followAlias name name = .ok target) :
      Step scope order r (r.noteAlias name target)
  | own {r : Resolver} {site : Site} {shape : Shape} {inlines : List Inline}
      (visits : scope.Visits order site)
      (outline : (scope.outlineAt site).outcome = .ok (.shape shape inlines)) :
      Step scope order r
        ((r.note (scope.outlineAt site).warnings).record (site.resolved shape) inlines)
  | same {r : Resolver} {site : Site} {other : String} {source : Resolved}
      (visits : scope.Visits order site)
      (outline : (scope.outlineAt site).outcome = .ok (.sameAs other))
      (known : (Pointer.ofComponent other, source) ∈ r.resolved) :
      Step scope order r (r.record (site.resolved source.shape) [])
  | drop {r : Resolver} {i : Inline} {rest : List Inline} (waits : r.pending = i :: rest)
      (known : r.Knows i.pointer) : Step scope order r { r with pending := rest }
  | remember {r : Resolver} {merged : List (Pointer × ObjectShape)}
      (right : scope.Trusted [] { r.toMemory with merged }) : Step scope order r { r with merged }

def Run (scope : Scope) (order : List String) : Resolver → Resolver → Prop :=
  Relation.ReflTransGen (Step scope order)

/-- A resolver holds nothing but what the visited sites say. -/
structure Sound (scope : Scope) (order : List String) (r : Resolver) : Prop where
  scope_eq : r.scope = scope
  memory : scope.Trusted [] r.toMemory
  resolved : ∀ e ∈ r.resolved, ∃ site shape, scope.Visits order site ∧
    scope.HasShape site shape ∧ e = (site.pointer, site.resolved shape)
  pending : ∀ i ∈ r.pending, scope.Visits order (.ofInline i)
  aliases : ∀ name target, r.aliases.find? name = some target →
    name ∈ order ∧ scope.document.followAlias name name = .ok target ∧ target ≠ name
  nodup : r.warnings.Nodup
  warnings : ∀ w ∈ r.warnings, ∃ site, scope.Visits order site ∧
    w ∈ (scope.outlineAt site).warnings

/-- All that a site brings with it is there: the schemas inside it wait or are known, the
component whose shape it has is known, and its warnings are noted. -/
structure Covers (scope : Scope) (r : Resolver) (site : Site) : Prop where
  inside : ∀ shape inlines, (scope.outlineAt site).outcome = .ok (.shape shape inlines) →
    ∀ i ∈ inlines, i ∈ r.pending ∨ r.Knows i.pointer
  same : ∀ other, (scope.outlineAt site).outcome = .ok (.sameAs other) →
    r.Knows (.ofComponent other)
  warned : ∀ w ∈ (scope.outlineAt site).warnings, w ∈ r.warnings

def Closed (scope : Scope) (order : List String) (r : Resolver) : Prop :=
  ∀ site, scope.Visits order site → r.Knows site.pointer → Covers scope r site

end

/-- The alias map says what a name stands for, unless it stands for itself. -/
def Noted (r : Resolver) (name target : String) : Prop :=
  target ≠ name → r.aliases.find? name = some target

@[simp] theorem resolved_noteAlias (r : Resolver) (name target : String) :
    (r.noteAlias name target).resolved = r.resolved := by
  unfold noteAlias
  split <;> rfl

@[simp] theorem scope_noteAlias (r : Resolver) (name target : String) :
    (r.noteAlias name target).scope = r.scope := by
  unfold noteAlias
  split <;> rfl

@[simp] theorem pending_noteAlias (r : Resolver) (name target : String) :
    (r.noteAlias name target).pending = r.pending := by
  unfold noteAlias
  split <;> rfl

@[simp] theorem toMemory_noteAlias (r : Resolver) (name target : String) :
    (r.noteAlias name target).toMemory = r.toMemory := by
  unfold noteAlias
  split <;> rfl

theorem find?_aliases_noteAlias (r : Resolver) (name target other : String) :
    (r.noteAlias name target).aliases.find? other =
      if other = name ∧ target ≠ name then some target else r.aliases.find? other := by
  unfold noteAlias
  by_cases ht : target = name
  · simp [ht]
  · by_cases ho : other = name <;> simp [ht, ho]

theorem noteAlias_self (r : Resolver) (name : String) : r.noteAlias name name = r := by
  simp [noteAlias]

theorem knows_noteAlias {name target : String} {pointer : Pointer} :
    (r.noteAlias name target).Knows pointer ↔ r.Knows pointer := by
  simp [Knows]

theorem knows_record {s : Resolved} {inlines : List Inline} {pointer : Pointer} :
    (r.record s inlines).Knows pointer ↔ pointer = s.pointer ∨ r.Knows pointer := by
  simp only [Knows, record, List.mem_append, List.mem_singleton, Prod.mk.injEq]
  constructor
  · rintro ⟨t, h | ⟨h, -⟩⟩
    · exact .inr ⟨t, h⟩
    · exact .inl h
  · rintro (h | ⟨t, h⟩)
    · exact ⟨s, .inr ⟨h, rfl⟩⟩
    · exact ⟨t, .inl h⟩

variable [Libraries]

theorem Step.scope_eq (h : Step scope order r r') : r'.scope = r.scope := by
  cases h with
  | follow mem follows => simp
  | own visits outline => rfl
  | same visits outline known => rfl
  | drop waits known => rfl
  | remember right => rfl

theorem Step.resolved_subset (h : Step scope order r r') {e : Pointer × Resolved}
    (he : e ∈ r.resolved) : e ∈ r'.resolved := by
  cases h with
  | follow mem follows => simpa using he
  | own visits outline => exact List.mem_append_left _ he
  | same visits outline known => exact List.mem_append_left _ he
  | drop waits known => exact he
  | remember right => exact he

theorem Step.knows (h : Step scope order r r') {pointer : Pointer} (hk : r.Knows pointer) :
    r'.Knows pointer := by
  obtain ⟨s, hs⟩ := hk
  exact ⟨s, h.resolved_subset hs⟩

/-- What is known or waits before a step is known or waits after it. -/
theorem Step.covered (h : Step scope order r r') {i : Inline}
    (hi : i ∈ r.pending ∨ r.Knows i.pointer) : i ∈ r'.pending ∨ r'.Knows i.pointer := by
  rcases hi with hi | hi
  · cases h with
    | follow mem follows => exact .inl (by rwa [pending_noteAlias])
    | own visits outline => exact .inl (List.mem_append_left _ hi)
    | same visits outline known => exact .inl (List.mem_append_left _ hi)
    | @drop j rest waits known =>
      rw [waits] at hi
      rcases List.mem_cons.1 hi with rfl | hi
      · exact .inr known
      · exact .inl hi
    | remember right => exact .inl hi
  · exact .inr (h.knows hi)

theorem Step.warned (h : Step scope order r r') {w : Warning} (hw : w ∈ r.warnings) :
    w ∈ r'.warnings := by
  cases h with
  | follow mem follows => simpa using hw
  | own visits outline => exact mem_noteAll.2 (.inl hw)
  | same visits outline known => exact hw
  | drop waits known => exact hw
  | remember right => exact hw

omit [Libraries] in
theorem noted_noteAlias (r : Resolver) (name target : String) :
    (r.noteAlias name target).Noted name target := by
  intro hne
  rw [find?_aliases_noteAlias, if_pos ⟨rfl, hne⟩]

/-- A name is followed to one component only, so what is noted stays. -/
theorem Step.noted (h : Step scope order r r') {name target : String}
    (ht : scope.document.followAlias name name = .ok target) (hn : r.Noted name target) :
    r'.Noted name target := by
  intro hne
  have ha := hn hne
  cases h with
  | @follow other target' mem follows =>
    rw [find?_aliases_noteAlias]
    split
    · rename_i hc
      rw [← hc.1, ht, Except.ok.injEq] at follows
      rw [follows]
    · exact ha
  | own visits outline => exact ha
  | same visits outline known => exact ha
  | drop waits known => exact ha
  | remember right => exact ha

theorem Covers.step {site : Site} (hc : Covers scope r site) (h : Step scope order r r') :
    Covers scope r' site where
  inside shape inlines ho i hi := h.covered (hc.inside shape inlines ho i hi)
  same other ho := h.knows (hc.same other ho)
  warned w hw := h.warned (hc.warned w hw)

theorem Sound.shape_eq (hs : Sound scope order r) {site : Site} {s : Resolved}
    (hv : scope.Visits order site) (hm : (site.pointer, s) ∈ r.resolved) :
    ∃ shape, scope.HasShape site shape ∧ s = site.resolved shape := by
  obtain ⟨site', shape, hv', hshape, he⟩ := hs.resolved _ hm
  rw [Prod.mk.injEq] at he
  have hsite : site' = site := hv'.grounded.site_eq hv.grounded he.1.symm
  subst hsite
  exact ⟨shape, hshape, he.2⟩

theorem Step.sound (h : Step scope order r r') (hs : Sound scope order r) :
    Sound scope order r' := by
  cases h with
  | @follow name target mem follows =>
    refine ⟨by simpa using hs.scope_eq, by simpa using hs.memory, by simpa using hs.resolved,
      by simpa only [pending_noteAlias] using hs.pending, ?_, by simpa using hs.nodup,
      by simpa using hs.warnings⟩
    intro other found hf
    rw [find?_aliases_noteAlias] at hf
    split at hf
    · rename_i hc
      cases hf
      exact ⟨hc.1 ▸ mem, by rw [hc.1]; exact follows, by rw [hc.1]; exact hc.2⟩
    · exact hs.aliases other found hf
  | @own site shape inlines visits outline =>
    refine ⟨hs.scope_eq, hs.memory.note _, ?_, ?_, hs.aliases, nodup_noteAll hs.nodup _, ?_⟩
    · intro e he
      rcases List.mem_append.1 he with he | he
      · exact hs.resolved e he
      · exact ⟨site, shape, visits, ⟨1, .own outline⟩, List.mem_singleton.1 he⟩
    · intro i hi
      rcases List.mem_append.1 hi with hi | hi
      · exact hs.pending i hi
      · exact .inside visits outline hi
    · intro w hw
      rcases mem_noteAll.1 hw with hw | hw
      · exact hs.warnings w hw
      · exact ⟨site, visits, hw⟩
  | @same site other source visits outline known =>
    refine ⟨hs.scope_eq, hs.memory, ?_, by simpa [record] using hs.pending, hs.aliases, hs.nodup,
      hs.warnings⟩
    intro e he
    rcases List.mem_append.1 he with he | he
    · exact hs.resolved e he
    -- the source is a visited site too, so what is known of it is its shape
    · obtain ⟨s, hd, -⟩ := (Scope.outline_sameAs outline).1.definition
      obtain ⟨shape, ⟨n, hshape⟩, rfl⟩ := hs.shape_eq (.same visits outline hd) known
      exact ⟨site, shape, visits, ⟨n + 1, .same outline hd hshape⟩, List.mem_singleton.1 he⟩
  | drop waits known =>
    refine ⟨hs.scope_eq, hs.memory, hs.resolved, ?_, hs.aliases, hs.nodup, hs.warnings⟩
    intro i hi
    exact hs.pending i (waits ▸ List.mem_cons_of_mem _ hi)
  | remember right =>
    exact ⟨hs.scope_eq, right, hs.resolved, hs.pending, hs.aliases, hs.nodup, hs.warnings⟩

/-- Resolving a site adds what it brings with it, so everything known stays covered. -/
theorem Step.closed (h : Step scope order r r') (hc : Closed scope order r) :
    Closed scope order r' := by
  intro site hv hk
  -- what was known before is covered already; only the site of this step is new
  by_cases hknown : r.Knows site.pointer
  · exact (hc site hv hknown).step h
  · cases h with
    | follow mem follows => exact absurd (knows_noteAlias.1 hk) hknown
    | @own site' shape inlines visits outline =>
      have hp := (knows_record.1 hk).resolve_right hknown
      cases visits.grounded.site_eq hv.grounded hp.symm
      refine ⟨?_, ?_, ?_⟩
      · intro shape' inlines' ho i hi
        rw [outline] at ho
        cases ho
        exact .inl (List.mem_append_right _ hi)
      · intro other ho
        rw [outline] at ho
        cases ho
      · intro w hw
        exact mem_noteAll.2 (.inr hw)
    | @same site' other source visits outline known =>
      have hp := (knows_record.1 hk).resolve_right hknown
      cases visits.grounded.site_eq hv.grounded hp.symm
      refine ⟨?_, ?_, ?_⟩
      · intro shape' inlines' ho i hi
        rw [outline] at ho
        cases ho
      · intro other' ho
        rw [outline] at ho
        cases ho
        exact knows_record.2 (.inr ⟨source, known⟩)
      · intro w hw
        have hnone : (scope.outlineAt site).warnings = [] := (Scope.outline_sameAs outline).2.1
        rw [hnone] at hw
        cases hw
    | drop waits known => exact absurd hk hknown
    | remember right => exact absurd hk hknown

theorem Run.sound (h : Run scope order r r') (hs : Sound scope order r) :
    Sound scope order r' := by
  induction h with
  | refl => exact hs
  | tail _ step ih => exact step.sound ih

theorem Run.closed (h : Run scope order r r') (hc : Closed scope order r) :
    Closed scope order r' := by
  induction h with
  | refl => exact hc
  | tail _ step ih => exact step.closed ih

theorem Run.resolved_subset (h : Run scope order r r') {e : Pointer × Resolved}
    (he : e ∈ r.resolved) : e ∈ r'.resolved := by
  induction h with
  | refl => exact he
  | tail _ step ih => exact step.resolved_subset ih

theorem Run.knows (h : Run scope order r r') {pointer : Pointer} (hk : r.Knows pointer) :
    r'.Knows pointer := by
  obtain ⟨s, hs⟩ := hk
  exact ⟨s, h.resolved_subset hs⟩

theorem Run.noted (h : Run scope order r r') {name target : String}
    (ht : scope.document.followAlias name name = .ok target) (hn : r.Noted name target) :
    r'.Noted name target := by
  induction h with
  | refl => exact hn
  | tail _ step ih => exact step.noted ht ih

/-- A resolver of a scope that remembers nothing wrong. -/
structure Ready (scope : Scope) (r : Resolver) : Prop where
  scope_eq : r.scope = scope
  memory : scope.Trusted [] r.toMemory

theorem ready_start (scope : Scope) : Ready scope (start scope) := ⟨rfl, scope.trusted_empty⟩

theorem Ready.noteAlias (h : Ready scope r) (name target : String) :
    Ready scope (r.noteAlias name target) :=
  ⟨by rw [scope_noteAlias, h.scope_eq], by rw [toMemory_noteAlias]; exact h.memory⟩

theorem Ready.step (h : Ready scope r) (hs : Step scope order r r') : Ready scope r' := by
  refine ⟨hs.scope_eq.trans h.scope_eq, ?_⟩
  cases hs with
  | follow mem follows => exact (h.noteAlias _ _).memory
  | own visits outline => exact h.memory.note _
  | same visits outline known => exact h.memory
  | drop waits known => exact h.memory
  | remember right => exact right

theorem Run.ready (h : Run scope order r r') (hr : Ready scope r) : Ready scope r' := by
  induction h with
  | refl => exact hr
  | tail _ step ih => exact ih.step step

/-- What a ready resolver finds is the outline of the site; it notes the warnings, and what it
remembers then is right again. -/
theorem Ready.outline_eq (h : Ready scope r) {name : String} {pointer : Pointer} {s : Schema}
    (hp : scope.placeAt pointer = some (.owner name s)) :
    ∃ merged, r.outline name pointer s =
        ({ r.note (scope.outline name pointer s).warnings with merged },
          Stop.ofExcept (scope.outline name pointer s).outcome) ∧
      scope.Trusted []
        { (r.note (scope.outline name pointer s).warnings).toMemory with merged } := by
  obtain ⟨rfl, hm⟩ := h
  obtain ⟨x, hx, hr⟩ := Scope.outlineM_recalled hm hp
  have hout : (r.scope.outlineM name pointer s r.toMemory).2 =
      Stop.ofExcept (r.scope.outline name pointer s).outcome := by rw [hr.outcome, hx]
  have hwarn : (r.scope.outlineM name pointer s r.toMemory).1.warnings =
      noteAll r.warnings (r.scope.outline name pointer s).warnings := by rw [hr.warnings, hx]
  have hmerging := hr.on.merging.trans hm.on.merging.symm
  have htyping := hr.on.typing.trans hm.on.typing.symm
  have hright := hr.trusted
  unfold Resolver.outline
  generalize r.scope.outlineM name pointer s r.toMemory = found
    at hout hwarn hmerging htyping hright
  obtain ⟨⟨merged, merging, typing, warnings⟩, outcome⟩ := found
  subst hout hwarn hmerging htyping
  exact ⟨merged, rfl, hright⟩

theorem sound_start (scope : Scope) (order : List String) : Sound scope order (start scope) where
  scope_eq := rfl
  memory := scope.trusted_empty
  resolved := by simp [start]
  pending := by simp [start]
  aliases := by simp [start]
  nodup := List.nodup_nil
  warnings := by simp [start, Memory.empty]

theorem closed_start (scope : Scope) (order : List String) : Closed scope order (start scope) := by
  intro site hv hk
  obtain ⟨s, hs⟩ := hk
  cases hs

end Resolver

end SchemaModel
