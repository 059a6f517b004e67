import SchemaModel.Proofs.Resolve.Merge
import SchemaModel.Proofs.Resolve.Recall

/-!
Memory is transparent. What is found with memory is what is found without it, the same warnings
are noted, and the ways are left as they were, whether the work succeeds or fails
(`outlineM_recalled`).

A remembered schema was merged on one way and is used on others. So the memory is said to be right
(`Scope.Recalls`) for all ways that hold none of the remembered components; the way at hand is
always one of them, since a component is remembered only when it is off the way again.
-/

namespace SchemaModel

theorem noteAll_of_subset {noted warnings : List Warning} (h : ∀ w ∈ warnings, w ∈ noted) :
    noteAll noted warnings = noted := by
  induction warnings with
  | nil => rfl
  | cons first rest ih =>
    have hfirst : noted.contains first := by simpa using h first List.mem_cons_self
    rw [noteAll_cons, if_pos hfirst]
    exact ih fun w hw => h w (List.mem_cons_of_mem _ hw)

namespace Memory

/-- Without memory the computation finds the same, and warns of nothing new. -/
def Holds {α : Type} (m : Memory) (x : Traced α) (a : α) : Prop :=
  x.outcome = .ok a ∧ ∀ w ∈ x.warnings, w ∈ m.warnings

theorem Holds.mono {α : Type} {m m' : Memory} {x : Traced α} {a : α} (h : m.Holds x a)
    (hw : ∀ w ∈ m.warnings, w ∈ m'.warnings) : m'.Holds x a :=
  ⟨h.1, fun w hm => hw w (h.2 w hm)⟩

theorem Holds.bind {α β : Type} {m : Memory} {x : Traced α} {f : α → Traced β} {a : α} {b : β}
    (hx : m.Holds x a) (hf : m.Holds (f a) b) : m.Holds (x >>= f) b := by
  rw [Holds, Traced.bind_of_ok hx.1]
  refine ⟨hf.1, ?_⟩
  intro w hw
  exact (List.mem_append.1 hw).elim (hx.2 w) (hf.2 w)

/-- The schemas on `path` are being merged, and no type is being found. -/
structure On (m : Memory) (path : Scope.MergePath) : Prop where
  merging : m.merging = path
  typing : m.typing = []

theorem mem_of_find? {m : Memory} {pointer : Pointer} {o : ObjectShape}
    (h : m.find? pointer = some o) : (pointer, o) ∈ m.merged := by
  obtain ⟨a, b, hab, -⟩ := List.lookup_eq_some_iff.1 h
  rw [hab]
  simp

theorem notMem_of_find? {m : Memory} {pointer : Pointer} (h : m.find? pointer = none)
    (o : ObjectShape) : (pointer, o) ∉ m.merged := by
  intro hm
  have hne := List.lookup_eq_none_iff.1 h _ hm
  simp at hne

end Memory

namespace Scope

variable {scope : Scope}

/-- No component on the path is remembered. -/
def MergePath.Apart (path : MergePath) (m : Memory) : Prop :=
  ∀ name ∈ path.components, ∀ o, (Pointer.ofComponent name, o) ∉ m.merged

theorem MergePath.Apart.mono {path : MergePath} {m m' : Memory} (h : path.Apart m')
    (hg : ∀ e ∈ m.merged, e ∈ m'.merged) : path.Apart m :=
  fun name hn o hm => h name hn o (hg _ hm)

theorem MergePath.Apart.append {path : MergePath} {m : Memory} (h : path.Apart m)
    {pointer : Pointer} (hf : m.find? pointer = none) (name : String) :
    MergePath.Apart (path ++ [(pointer, name)]) m := by
  intro c hc o
  rw [MergePath.components_append] at hc
  rcases List.mem_append.1 hc with hc | hc
  · exact h c hc o
  · simp only [MergePath.components, List.filterMap_cons, List.filterMap_nil] at hc
    split at hc
    · cases hc
    · rename_i he
      split at he
      · rename_i hsteps
        cases he
        have hp : Pointer.ofComponent c = pointer := by
          rw [List.mem_singleton.1 hc, Pointer.ofComponent, ← List.isEmpty_iff.1 hsteps]
        rw [hp]
        exact Memory.notMem_of_find? hf o
      · cases he

section

variable [Libraries]

/-- Each remembered schema is what merging finds at its position. -/
def Recalls (scope : Scope) (m : Memory) : Prop :=
  ∀ pointer o, (pointer, o) ∈ m.merged → ∃ name s,
    scope.placeAt pointer = some (.owner name s) ∧ ∀ path : MergePath, path.Apart m →
      m.Holds (scope.mergeSchema (path ++ [(pointer, name)]) name pointer s) o

theorem Recalls.note {m : Memory} (h : scope.Recalls m) (warnings : List Warning) :
    scope.Recalls (m.note warnings) := by
  intro pointer o hm
  obtain ⟨name, s, hp, hall⟩ := h pointer o hm
  refine ⟨name, s, hp, ?_⟩
  intro path ha
  exact (hall path ha).mono fun w hw => mem_noteAll.2 (.inl hw)

/-- A computation with memory, compared on the path at hand with the one without, and for what it
finds on all paths on which nothing is remembered. -/
structure Recalled {α : Type} (scope : Scope) (path : MergePath) (x : MergePath → Traced α)
    (m : Memory) (r : Memory × Except Stop α) : Prop where
  on : r.1.On path
  recalls : scope.Recalls r.1
  grows : ∀ e ∈ m.merged, e ∈ r.1.merged
  apart : path.Apart r.1
  outcome : r.2 = Stop.ofExcept (x path).outcome
  warnings : r.1.warnings = noteAll m.warnings (x path).warnings
  holds : ∀ a, r.2 = .ok a → ∀ other : MergePath, other.Apart r.1 → r.1.Holds (x other) a

/-- A memory on a path, from which what is found is right. -/
structure Trusted (scope : Scope) (path : MergePath) (m : Memory) : Prop where
  on : m.On path
  recalls : scope.Recalls m
  apart : path.Apart m

theorem trusted_empty (scope : Scope) : scope.Trusted [] .empty where
  on := ⟨rfl, rfl⟩
  recalls _ _ hm := by cases hm
  apart _ hc := by cases hc

theorem Trusted.note {path : MergePath} {m : Memory} (h : scope.Trusted path m)
    (warnings : List Warning) : scope.Trusted path (m.note warnings) :=
  ⟨⟨h.on.merging, h.on.typing⟩, h.recalls.note warnings, h.apart⟩

end

section

variable {α β : Type} {path : MergePath} {m : Memory}

variable [Libraries]

theorem Recalled.trusted {x : MergePath → Traced α} {r : Memory × Except Stop α}
    (h : scope.Recalled path x m r) : scope.Trusted path r.1 := ⟨h.on, h.recalls, h.apart⟩

theorem Recalled.warned {x : MergePath → Traced α} {r : Memory × Except Stop α}
    (h : scope.Recalled path x m r) {w : Warning} (hw : w ∈ m.warnings) : w ∈ r.1.warnings := by
  rw [h.warnings]
  exact mem_noteAll.2 (.inl hw)

omit [Libraries] in
theorem ofExcept_eq_ok_iff {x : Except ModelError α} {a : α} :
    Stop.ofExcept x = .ok a ↔ x = .ok a := by
  cases x with
  | error e => simp [Stop.ofExcept]
  | ok b => simp [Stop.ofExcept]

omit [Libraries] in
theorem ofExcept_eq_error {x : Except ModelError α} {e : Stop} (h : Stop.ofExcept x = .error e) :
    ∃ error, e = .failed error ∧ x = .error error := by
  cases x with
  | error error =>
    cases h
    exact ⟨error, rfl, rfl⟩
  | ok a => cases h

theorem recalled_trace (hm : scope.Trusted path m) (x : Traced α) :
    scope.Recalled path (fun _ => x) m (Recall.trace x m) where
  on := (hm.note x.warnings).on
  recalls := (hm.note x.warnings).recalls
  grows _ he := he
  apart := hm.apart
  outcome := rfl
  warnings := rfl
  holds _ h _ _ := ⟨ofExcept_eq_ok_iff.1 h, fun _ hw => mem_noteAll.2 (.inr hw)⟩

theorem Recalled.bind {x : MergePath → Traced α} {y : α → MergePath → Traced β} {f : Recall α}
    {g : α → Recall β} (hx : scope.Recalled path x m (f m))
    (hy : ∀ a, (f m).2 = .ok a → scope.Trusted path (f m).1 →
      scope.Recalled path (y a) (f m).1 (g a (f m).1)) :
    scope.Recalled path (fun p => x p >>= fun a => y a p) m ((f >>= g) m) := by
  have hbind := Recall.bind_apply f g m
  have hm := hx.trusted
  rcases hf : f m with ⟨m₁, out⟩
  rw [hf] at hbind hx hy hm
  cases out with
  | error e =>
    obtain ⟨error, rfl, herror⟩ := ofExcept_eq_error hx.outcome.symm
    have hpure := Traced.bind_of_error herror fun a => y a path
    rw [hbind]
    refine ⟨hx.on, hx.recalls, hx.grows, hx.apart, by rw [hpure]; rfl, ?_, ?_⟩
    · rw [hpure]
      exact hx.warnings
    · intro b hb
      cases hb
  | ok a =>
    have hnext := hy a rfl hm
    have hpure := Traced.bind_of_ok (ofExcept_eq_ok_iff.1 hx.outcome.symm) fun a => y a path
    rw [hbind]
    refine ⟨hnext.on, hnext.recalls, fun e he => hnext.grows e (hx.grows e he), hnext.apart,
      ?_, ?_, ?_⟩
    · rw [hpure]
      exact hnext.outcome
    · rw [hpure, noteAll_append]
      exact hnext.warnings.trans (congrArg (noteAll · _) hx.warnings)
    · intro b hb other ho
      have hold := hx.holds a rfl other (ho.mono hnext.grows)
      exact (hold.mono fun w hw => hnext.warned hw).bind (hnext.holds b hb other ho)

/-- Merging once at a position of which the walk knows the name and schema. The schema is on the
path as long as it is merged; when it is remembered it is off the path, and until then no path
that is apart from the memory held it. -/
theorem Recalled.once {name : String} {pointer : Pointer} {s : Schema} {f : Recall ObjectShape}
    (hm : scope.Trusted path m) (hp : scope.placeAt pointer = some (.owner name s))
    (hoff : ∀ c ∈ path.components, pointer ≠ .ofComponent c)
    (hf : ∀ m, scope.Trusted (path ++ [(pointer, name)]) m →
      scope.Recalled (path ++ [(pointer, name)])
        (fun p => scope.mergeSchema p name pointer s) m (f m)) :
    scope.Recalled path (fun p => scope.mergeSchema (p ++ [(pointer, name)]) name pointer s) m
      (Recall.once pointer (Recall.whileMerging pointer name f) m) := by
  unfold Recall.once
  cases hfind : m.find? pointer with
  | some o =>
    obtain ⟨name', s', hp', hall⟩ := hm.recalls pointer o (Memory.mem_of_find? hfind)
    rw [hp, Option.some.injEq, Place.owner.injEq] at hp'
    obtain ⟨rfl, rfl⟩ := hp'
    obtain ⟨hout, hwarn⟩ := hall path hm.apart
    refine ⟨hm.on, hm.recalls, fun e he => he, hm.apart, ?_, (noteAll_of_subset hwarn).symm, ?_⟩
    · rw [hout]
      rfl
    · intro a h other ho
      cases h
      exact hall other ho
  | none =>
    have hpush : scope.Trusted (path ++ [(pointer, name)])
        { m with merging := m.merging ++ [(pointer, name)] } :=
      ⟨⟨by rw [hm.on.merging], hm.on.typing⟩, hm.recalls, hm.apart.append hfind name⟩
    have hrun := hf _ hpush
    simp only [Recall.whileMerging]
    rcases hfm : f { m with merging := m.merging ++ [(pointer, name)] } with ⟨m₁, out⟩
    rw [hfm] at hrun
    -- the schema is taken off the way again, also after an error
    have hpop : Memory.On { m₁ with merging := m₁.merging.dropLast } path :=
      ⟨by rw [hrun.on.merging, List.dropLast_concat], hrun.on.typing⟩
    have hpath : path.Apart m₁ := by
      intro c hc
      refine hrun.apart c ?_
      rw [MergePath.components_append]
      exact List.mem_append_left _ hc
    cases out with
    | error e =>
      refine ⟨hpop, hrun.recalls, hrun.grows, hpath, hrun.outcome, hrun.warnings, ?_⟩
      intro a h
      cases h
    | ok o =>
      have hgrows : ∀ e ∈ m₁.merged, e ∈ (m₁.remember pointer o).merged := fun e he =>
        List.mem_cons_of_mem _ he
      -- the position itself was not remembered while it was merged
      have hself : ∀ other : MergePath, other.Apart (m₁.remember pointer o) →
          MergePath.Apart (other ++ [(pointer, name)]) m₁ := by
        intro other ho c hc o' hmem
        rw [MergePath.components_append] at hc
        rcases List.mem_append.1 hc with hc | hc
        · exact ho c hc o' (hgrows _ hmem)
        · refine hrun.apart c ?_ o' hmem
          rw [MergePath.components_append]
          exact List.mem_append_right _ hc
      have hnew : ∀ other : MergePath, other.Apart (m₁.remember pointer o) →
          (m₁.remember pointer o).Holds
            (scope.mergeSchema (other ++ [(pointer, name)]) name pointer s) o :=
        fun other ho => hrun.holds o rfl _ (hself other ho)
      refine ⟨⟨hpop.merging, hpop.typing⟩, ?_, fun e he => hgrows e (hrun.grows e he), ?_,
        hrun.outcome, hrun.warnings, ?_⟩
      · intro q o' hmem
        rcases List.mem_cons.1 hmem with he | hmem
        · cases he
          exact ⟨name, s, hp, hnew⟩
        · obtain ⟨name', s', hp', hall⟩ := hrun.recalls q o' hmem
          exact ⟨name', s', hp', fun other ho => hall other (ho.mono hgrows)⟩
      · intro c hc o' hmem
        rcases List.mem_cons.1 hmem with he | hmem
        · exact hoff c hc (congrArg Prod.fst he).symm
        · exact hpath c hc o' hmem
      · intro a h other ho
        cases h
        exact hnew other ho

omit [Libraries] in
theorem once_mem {pointer : Pointer} {f : Recall ObjectShape} {o : ObjectShape}
    (h : (Recall.once pointer f m).2 = .ok o) :
    (pointer, o) ∈ (Recall.once pointer f m).1.merged := by
  unfold Recall.once at h ⊢
  cases hfind : m.find? pointer with
  | some o' =>
    simp only [hfind] at h ⊢
    cases h
    exact Memory.mem_of_find? hfind
  | none =>
    rcases hf : f m with ⟨m₁, out⟩
    cases out with
    | error e =>
      simp only [hfind, hf] at h
      cases h
    | ok o' =>
      simp only [hfind, hf] at h ⊢
      cases h
      exact List.mem_cons_self

theorem recalled_stop {x : MergePath → Traced α} {e : ModelError}
    (hm : scope.Trusted path m) (hx : x path = Traced.fail e) :
    scope.Recalled path x m (m, .error (.failed e)) where
  on := hm.on
  recalls := hm.recalls
  grows _ he := he
  apart := hm.apart
  outcome := by rw [hx]; rfl
  warnings := by rw [hx]; rfl
  holds _ h := by cases h

theorem Recalled.congr {x y : MergePath → Traced α} {r : Memory × Except Stop α}
    (h : scope.Recalled path x m r) (hpath : x path = y path)
    (hother : ∀ a, r.2 = .ok a → ∀ other : MergePath, other.Apart r.1 → x other = y other) :
    scope.Recalled path y m r where
  on := h.on
  recalls := h.recalls
  grows := h.grows
  apart := h.apart
  outcome := by rw [h.outcome, hpath]
  warnings := by rw [h.warnings, hpath]
  holds a ha other ho := by
    rw [← hother a ha other ho]
    exact h.holds a ha other ho

end

variable [Libraries]

theorem recalled_traces {α : Type} {path : MergePath} {m : Memory} {f : Recall α} {x : Traced α}
    (hm : scope.Trusted path m) (h : Recall.Traces [] f x) :
    scope.Recalled path (fun _ => x) m (f m) := by
  rw [h m hm.on.typing]
  exact recalled_trace hm x

theorem definition?_of_placeAt {name owner : String} {s : Schema}
    (h : scope.placeAt (.ofComponent name) = some (.owner owner s)) :
    owner = name ∧ scope.document.definition? name = some s := by
  obtain ⟨t, ht, h⟩ := Option.bind_eq_some_iff.1 h
  cases h
  exact ⟨rfl, ht⟩

theorem mergeComponentM_eq (fuel : Nat) (name : String) (m : Memory) :
    scope.mergeComponentM (fuel + 1) name m = Recall.once (.ofComponent name)
      (if name ∈ m.merging.components then Recall.stop (.failed (mergeCycle m.merging name))
      else match scope.document.definition? name with
        | none => Recall.stop (.failed (Document.missing name))
        | some s => Recall.whileMerging (.ofComponent name) name
            (scope.mergeSchemaM fuel name (.ofComponent name) s)) m := by
  rw [mergeComponentM]
  rfl

/-- A referenced component, of which merging with memory is known off the way. -/
theorem mergeComponent_recalled {path : MergePath} {name : String} {m : Memory} {fuel : Nat}
    (hm : scope.Trusted path m)
    (hs : ∀ s, scope.document.definition? name = some s → name ∉ path.components → ∀ m,
      scope.Trusted (path ++ [(.ofComponent name, name)]) m →
      scope.Recalled (path ++ [(.ofComponent name, name)])
        (fun p => scope.mergeSchema p name (.ofComponent name) s) m
        (scope.mergeSchemaM fuel name (.ofComponent name) s m)) :
    scope.Recalled path (fun p => scope.mergeComponent p name) m
      (scope.mergeComponentM (fuel + 1) name m) := by
  rw [mergeComponentM_eq, hm.on.merging]
  by_cases hn : name ∈ path.components
  · -- on the way, and so not remembered
    have hnone : m.find? (.ofComponent name) = none := by
      cases hf : m.find? (.ofComponent name) with
      | none => rfl
      | some o => exact absurd (Memory.mem_of_find? hf) (hm.apart name hn o)
    have hpure : scope.mergeComponent path name = Traced.fail (mergeCycle path name) := by
      rw [mergeComponent_eq, if_pos hn]
    simp only [Recall.once, hnone, if_pos hn, Recall.stop]
    exact recalled_stop hm hpure
  · rw [if_neg hn]
    cases hd : scope.document.definition? name with
    | none =>
      have hnone : m.find? (.ofComponent name) = none := by
        cases hf : m.find? (.ofComponent name) with
        | none => rfl
        | some o =>
          obtain ⟨owner, s, hp, -⟩ := hm.recalls _ o (Memory.mem_of_find? hf)
          have hs := (definition?_of_placeAt hp).2
          rw [hd] at hs
          cases hs
      have hpure : scope.mergeComponent path name = Traced.fail (Document.missing name) := by
        rw [mergeComponent_eq, if_neg hn, hd]
      simp only [Recall.once, hnone, Recall.stop]
      exact recalled_stop hm hpure
    | some s =>
      have hpure : ∀ other : MergePath, name ∉ other.components →
          scope.mergeSchema (other ++ [(.ofComponent name, name)]) name (.ofComponent name) s =
            scope.mergeComponent other name := by
        intro other ho
        rw [mergeComponent_eq, if_neg ho, hd]
      have hoff : ∀ c ∈ path.components, Pointer.ofComponent name ≠ .ofComponent c := by
        intro c hc he
        have hnc : name = c := congrArg Pointer.component he
        exact hn (hnc ▸ hc)
      have honce := Recalled.once hm (placeAt_ofComponent hd) hoff (hs s hd hn)
      refine honce.congr (hpure path hn) ?_
      intro a h other ho
      refine hpure other ?_
      intro hc
      exact ho name hc a (once_mem h)

/-- Merging with memory, along the three functions that call each other, on all paths off which
there are fewer components than the fuel reaches. -/
theorem merging_recalled (scope : Scope) :
    (∀ fuel name pointer s, scope.placeAt pointer = some (.owner name s) → ∀ path m,
      scope.document.unseen path.components < fuel → scope.Trusted path m →
      scope.Recalled path (fun p => scope.mergeSchema p name pointer s) m
        (scope.mergeSchemaM fuel name pointer s m)) ∧
    (∀ fuel name pointer index branches o, ∀ s, scope.placeAt pointer = some (.owner name s) →
      s.allOf.drop index = branches → ∀ path m,
      scope.document.unseen path.components < fuel → scope.Trusted path m →
      scope.Recalled path (fun p => scope.mergeBranches p name pointer index branches o) m
        (scope.mergeBranchesM fuel name pointer index branches o m)) ∧
    ∀ fuel name path m, scope.document.unseen path.components < fuel →
      scope.Trusted path m → scope.Recalled path (fun p => scope.mergeComponent p name) m
        (scope.mergeComponentM fuel name m) := by
  apply mergeSchemaM.mutual_induct
  case case1 =>
    intro fuel name pointer s ih hp path m hf hm
    simp only [mergeSchema, mergeSchemaM]
    exact (ih s hp rfl path m hf hm).bind fun o _ hm =>
      recalled_traces hm (mergeOwnM_traces name pointer s o)
  case case2 =>
    intro fuel name pointer index o s hp hd path m hf hm
    simp only [mergeBranches, mergeBranchesM]
    exact recalled_trace hm (pure o)
  case case3 =>
    intro fuel name pointer index o target rest ihc ihr s hp hd path m hf hm
    simp only [mergeBranches, mergeBranchesM]
    refine (recalled_trace hm _).bind fun parent _ hm => ?_
    refine (ihc parent path _ hf hm).bind fun inherited _ hm => ?_
    refine (recalled_trace hm _).bind fun o _ hm => ?_
    exact ihr parent o s hp (of_drop_eq_cons hd).2 path _ hf hm
  case case4 =>
    intro fuel name pointer index o inner rest at_ ihs ihr s hp hd path m hf hm
    obtain ⟨hindex, hrest⟩ := of_drop_eq_cons hd
    have hplace : scope.placeAt at_ = some (.owner name inner) := by
      rw [placeAt_push, hp, Option.bind_some, childPlace, hindex]
      rfl
    -- the position of a branch is no component's, so it hides none
    have hoff : ∀ c, at_ ≠ .ofComponent c := by
      intro c he
      exact steps_push_ne_nil pointer (.allOf index) (congrArg Pointer.steps he)
    have hf' : scope.document.unseen (MergePath.components (path ++ [(at_, name)])) < fuel := by
      rw [MergePath.components_append]
      exact Nat.lt_of_le_of_lt (scope.document.unseen_append_le _ _) hf
    simp only [mergeBranches, mergeBranchesM]
    refine (Recalled.once hm hplace (fun c _ => hoff c)
      fun m hm => ihs hplace _ m hf' hm).bind fun inherited _ hm => ?_
    refine (recalled_trace hm _).bind fun o _ hm => ?_
    exact ihr inherited o s hp hrest path _ hf hm
  case case5 =>
    intro name path m hf
    omega
  case case6 =>
    intro name fuel ih path m hf hm
    refine mergeComponent_recalled hm fun s hs hn m hm => ih s (placeAt_ofComponent hs) _ m ?_ hm
    rw [MergePath.components_append]
    have hlt := scope.document.unseen_append_lt (Document.mem_names_of_definition hs) hn
    exact Nat.lt_of_lt_of_le hlt (Nat.le_of_lt_succ hf)

theorem objectShapeM_recalled {name : String} {pointer : Pointer} {s : Schema} {m : Memory}
    (hm : scope.Trusted [] m) (hp : scope.placeAt pointer = some (.owner name s)) :
    ∃ x : MergePath → Traced ObjectShape, x [] = scope.objectShape name pointer s ∧
      scope.Recalled [] x m (scope.objectShapeM name pointer s m) := by
  have hf : scope.document.unseen (MergePath.components ([] ++ [(pointer, name)])) <
      scope.depth := by
    have hle : scope.document.unseen (MergePath.components ([] ++ [(pointer, name)])) ≤
      scope.document.names.length := List.length_filter_le _ _
    rw [depth]
    omega
  refine ⟨_, ?_, Recalled.bind (x := fun p =>
    scope.mergeSchema (p ++ [(pointer, name)]) name pointer s)
    (y := fun o _ => if o.discriminator.isNone then pure o else do
      let members ← scope.unionMembers name 0 o.unionMembers (s.oneOf ++ s.anyOf)
      return { o with unionMembers := members }) ?_ ?_⟩
  · rfl
  · exact Recalled.once hm hp (fun c hc => by cases hc) fun m hm =>
      (merging_recalled scope).1 _ _ _ _ hp _ m hf hm
  · intro o _ hm
    split
    · exact recalled_trace hm (pure o)
    · exact (recalled_trace hm _).bind fun members _ hm => recalled_trace hm (pure _)

/-- Outlines with memory are those without, and what is remembered stays right. -/
theorem outlineM_recalled {name : String} {pointer : Pointer} {s : Schema} {m : Memory}
    (hm : scope.Trusted [] m) (hp : scope.placeAt pointer = some (.owner name s)) :
    ∃ x : MergePath → Traced Outline, x [] = scope.outline name pointer s ∧
      scope.Recalled [] x m (scope.outlineM name pointer s m) := by
  induction pointer, s using outlineM.induct with
  | case1 pointer s keyword index inner hc ih =>
    rw [outlineM_eq, outline_eq, hc]
    refine ih ?_
    rw [placeAt_push, hp, Option.bind_some]
    exact childPlace_owner_union (Schema.category_nullableOf hc)
  | case2 pointer s hc =>
    obtain ⟨x, hx, hr⟩ := objectShapeM_recalled hm hp
    simp only [outlineM_eq, outline_eq, hc]
    refine ⟨fun p => x p >>= fun o => pure (.shape (.object o) o.inlines), by simp only [hx], ?_⟩
    exact hr.bind fun o _ hm => recalled_trace hm (pure _)
  | case3 pointer s items hc =>
    simp only [outlineM_eq, outline_eq, hc]
    exact ⟨_, rfl, recalled_traces hm
      ((typeNodeM_traces_nil _ _ _ _).bind fun _ => Recall.traces_pure _)⟩
  | case4 pointer s values hc =>
    simp only [outlineM_eq, outline_eq, hc]
    exact ⟨_, rfl, recalled_traces hm
      ((typeNodeM_traces_nil _ _ _ _).bind fun _ => Recall.traces_pure _)⟩
  | case5 pointer s hinner hobject harray hmap =>
    have htrace : scope.outlineM name pointer s = Recall.trace (scope.outline name pointer s) := by
      rw [outlineM_eq]
      split
      · rename_i h
        exact (hinner _ _ _ h).elim
      · rename_i h
        exact (hobject h).elim
      · rename_i h
        exact (harray _ h).elim
      · rename_i h
        exact (hmap _ h).elim
      · rfl
    rw [htrace]
    exact ⟨_, rfl, recalled_trace hm _⟩

end Scope

end SchemaModel
