import SchemaModel.Warning

/-!
How computations with warnings compose: a bind that ends well is two computations that end well,
and its warnings are theirs in order. Two computations that are the same but for what a map forgets
still are after the same steps, and so are one that succeeds and another that does whatever the
first succeeds in (`Traced.Implies`). Noting warnings adds each of them once.
-/

namespace SchemaModel

theorem bind_eq_ok_iff {ε α β : Type} {x : Except ε α} {f : α → Except ε β} {b : β} :
    x >>= f = .ok b ↔ ∃ a, x = .ok a ∧ f a = .ok b := by
  cases x with
  | error e => simp [bind, Except.bind]
  | ok a => simp [bind, Except.bind]

theorem bind_eq_error_iff {ε α β : Type} {x : Except ε α} {f : α → Except ε β} {e : ε} :
    x >>= f = .error e ↔ x = .error e ∨ ∃ a, x = .ok a ∧ f a = .error e := by
  cases x with
  | error e' => simp [bind, Except.bind]
  | ok a => simp [bind, Except.bind]

/-- The results of a traversal that ends well are those of its elements. -/
theorem mem_of_mapM_eq_ok {ε α β : Type} {f : α → Except ε β} {l : List α} {ys : List β}
    (h : l.mapM f = .ok ys) (y : β) : y ∈ ys ↔ ∃ x ∈ l, f x = .ok y := by
  induction l generalizing ys with
  | nil =>
    rw [List.mapM_nil] at h
    cases h
    simp
  | cons x rest ih =>
    rw [List.mapM_cons] at h
    obtain ⟨z, hz, h⟩ := bind_eq_ok_iff.1 h
    obtain ⟨zs, hzs, h⟩ := bind_eq_ok_iff.1 h
    cases h
    rw [List.mem_cons, ih hzs]
    constructor
    · rintro (rfl | ⟨x', hx, hy⟩)
      · exact ⟨x, List.mem_cons_self, hz⟩
      · exact ⟨x', List.mem_cons_of_mem _ hx, hy⟩
    · rintro ⟨x', hx, hy⟩
      rcases List.mem_cons.1 hx with rfl | hx
      · rw [hz, Except.ok.injEq] at hy
        exact .inl hy.symm
      · exact .inr ⟨x', hx, hy⟩

/-- Each element has a result. -/
theorem exists_of_mapM_eq_ok {ε α β : Type} {f : α → Except ε β} {l : List α} {ys : List β}
    (h : l.mapM f = .ok ys) : ∀ x ∈ l, ∃ y, f x = .ok y := by
  induction l generalizing ys with
  | nil => simp
  | cons first rest ih =>
    rw [List.mapM_cons] at h
    obtain ⟨z, hz, h⟩ := bind_eq_ok_iff.1 h
    obtain ⟨zs, hzs, h⟩ := bind_eq_ok_iff.1 h
    intro x hx
    rcases List.mem_cons.1 hx with rfl | hx
    · exact ⟨z, hz⟩
    · exact ih hzs x hx

/-- What each result keeps of its element, the results keep in order. -/
theorem map_eq_of_mapM_eq_ok {ε α β γ : Type} {f : α → Except ε β} {of : α → γ} {kept : β → γ}
    (hf : ∀ x y, f x = .ok y → kept y = of x) {l : List α} {ys : List β} (h : l.mapM f = .ok ys) :
    ys.map kept = l.map of := by
  induction l generalizing ys with
  | nil =>
    rw [List.mapM_nil] at h
    cases h
    rfl
  | cons x rest ih =>
    rw [List.mapM_cons] at h
    obtain ⟨z, hz, h⟩ := bind_eq_ok_iff.1 h
    obtain ⟨zs, hzs, h⟩ := bind_eq_ok_iff.1 h
    cases h
    rw [List.map_cons, List.map_cons, hf x z hz, ih hzs]

namespace Traced

variable {α β : Type}

@[simp] theorem outcome_pure (a : α) : (pure a : Traced α).outcome = .ok a := rfl

@[simp] theorem warnings_pure (a : α) : (pure a : Traced α).warnings = [] := rfl

@[simp] theorem outcome_lift (x : Except ModelError α) : (lift x).outcome = x := rfl

@[simp] theorem outcome_fail (e : ModelError) : (fail e : Traced α).outcome = .error e := rfl

@[simp] theorem outcome_warn (w : Warning) : (warn w).outcome = .ok () := rfl

theorem bind_of_ok {x : Traced α} {a : α} (h : x.outcome = .ok a) (f : α → Traced β) :
    x >>= f = ⟨(f a).outcome, x.warnings ++ (f a).warnings⟩ := by
  obtain ⟨outcome, warnings⟩ := x
  subst h
  rfl

theorem bind_of_error {x : Traced α} {e : ModelError} (h : x.outcome = .error e)
    (f : α → Traced β) : x >>= f = ⟨.error e, x.warnings⟩ := by
  obtain ⟨outcome, warnings⟩ := x
  subst h
  rfl

theorem outcome_bind_eq_ok_iff {x : Traced α} {f : α → Traced β} {b : β} :
    (x >>= f).outcome = .ok b ↔ ∃ a, x.outcome = .ok a ∧ (f a).outcome = .ok b := by
  cases h : x.outcome with
  | error e =>
    rw [bind_of_error h]
    simp
  | ok a =>
    rw [bind_of_ok h]
    simp

theorem outcome_bind_eq_error_iff {x : Traced α} {f : α → Traced β} {e : ModelError} :
    (x >>= f).outcome = .error e ↔
      x.outcome = .error e ∨ ∃ a, x.outcome = .ok a ∧ (f a).outcome = .error e := by
  cases h : x.outcome with
  | error e' =>
    rw [bind_of_error h]
    simp
  | ok a =>
    rw [bind_of_ok h]
    simp

theorem mem_warnings_bind {x : Traced α} {a : α} (h : x.outcome = .ok a) {f : α → Traced β}
    {w : Warning} : w ∈ (x >>= f).warnings ↔ w ∈ x.warnings ∨ w ∈ (f a).warnings := by
  rw [bind_of_ok h, List.mem_append]

theorem map_id' (x : Traced α) : id <$> x = x := by
  obtain ⟨outcome, warnings⟩ := x
  cases outcome with
  | error e => rfl
  | ok a => exact congrArg (Traced.mk (.ok a)) (List.append_nil warnings)

theorem bind_assoc' {γ : Type} (x : Traced α) (f : α → Traced β) (g : β → Traced γ) :
    x >>= f >>= g = x >>= fun a => f a >>= g := by
  cases h : x.outcome with
  | error e =>
    rw [bind_of_error h, bind_of_error h]
    rfl
  | ok a =>
    rw [bind_of_ok h, bind_of_ok h]
    cases hf : (f a).outcome with
    | error e =>
      rw [bind_of_error hf]
      rfl
    | ok b =>
      rw [bind_of_ok hf]
      exact congrArg (Traced.mk (g b).outcome) (List.append_assoc _ _ _)

instance : LawfulMonad Traced :=
  LawfulMonad.mk' Traced (fun x => map_id' x) (fun a f => rfl) (fun x f g => bind_assoc' x f g)

theorem outcome_map_eq_ok_iff {x : Traced α} {f : α → β} {b : β} :
    (f <$> x).outcome = .ok b ↔ ∃ a, x.outcome = .ok a ∧ f a = b := by
  rw [map_eq_pure_bind, outcome_bind_eq_ok_iff]
  simp

theorem outcome_map_eq_error_iff {x : Traced α} {f : α → β} {e : ModelError} :
    (f <$> x).outcome = .error e ↔ x.outcome = .error e := by
  rw [map_eq_pure_bind, outcome_bind_eq_error_iff]
  simp

/-- The outcome of a bind depends on the outcomes only. -/
theorem outcome_bind (x : Traced α) (f : α → Traced β) :
    (x >>= f).outcome = x.outcome >>= fun a => (f a).outcome := by
  cases h : x.outcome with
  | error e =>
    rw [bind_of_error h]
    rfl
  | ok a =>
    rw [bind_of_ok h]
    rfl

theorem outcome_mapM (f : α → Traced β) (l : List α) :
    (l.mapM f).outcome = l.mapM fun x => (f x).outcome := by
  induction l with
  | nil => rfl
  | cons x rest ih =>
    simp only [List.mapM_cons, outcome_bind, outcome_pure, ih]
    rfl

/-- A traversal that ends well has the warnings of each of its elements. -/
theorem mem_warnings_mapM {f : α → Traced β} {l : List α} {ys : List β}
    (h : (l.mapM f).outcome = .ok ys) {x : α} (hx : x ∈ l) {w : Warning}
    (hw : w ∈ (f x).warnings) : w ∈ (l.mapM f).warnings := by
  induction l generalizing ys with
  | nil => cases hx
  | cons first rest ih =>
    rw [List.mapM_cons] at h ⊢
    obtain ⟨y, hy, h⟩ := outcome_bind_eq_ok_iff.1 h
    obtain ⟨zs, hzs, -⟩ := outcome_bind_eq_ok_iff.1 h
    rw [mem_warnings_bind hy, mem_warnings_bind hzs]
    rcases List.mem_cons.1 hx with rfl | hx
    · exact .inl hw
    · exact .inr (.inl (ih hzs hx))

variable {γ : Type}

/-- Whenever the first computation succeeds, the second does the same with the same warnings. -/
def Implies (x y : Traced α) : Prop := ∀ a, x.outcome = .ok a → y = x

theorem Implies.refl (x : Traced α) : x.Implies x := fun _ _ => rfl

theorem Implies.bind {x y : Traced α} {f g : α → Traced β} (h : x.Implies y)
    (hf : ∀ a, (f a).Implies (g a)) : (x >>= f).Implies (y >>= g) := by
  intro b hb
  obtain ⟨a, ha, hb⟩ := outcome_bind_eq_ok_iff.1 hb
  rw [h a ha, bind_of_ok ha, bind_of_ok ha, hf a b hb]

theorem Implies.mapM {f g : α → Traced β} (h : ∀ a, (f a).Implies (g a)) (l : List α) :
    (l.mapM f).Implies (l.mapM g) := by
  induction l with
  | nil => exact .refl _
  | cons a rest ih =>
    rw [List.mapM_cons, List.mapM_cons]
    exact (h a).bind fun b => ih.bind fun bs => .refl _

theorem outcome_map (f : α → β) (x : Traced α) : (f <$> x).outcome = f <$> x.outcome := by
  rw [map_eq_pure_bind, outcome_bind, map_eq_pure_bind]
  rfl

theorem warnings_map (f : α → β) (x : Traced α) : (f <$> x).warnings = x.warnings := by
  rw [map_eq_pure_bind]
  cases h : x.outcome with
  | error e => rw [bind_of_error h]
  | ok a => rw [bind_of_ok h, warnings_pure, List.append_nil]

/-- Computations that agree but for what `e` forgets. -/
theorem agree_of_map {x x' : Traced α} {e : α → γ} (h : e <$> x = e <$> x') :
    x.warnings = x'.warnings ∧
      ((∃ error, x.outcome = .error error ∧ x'.outcome = .error error) ∨
        ∃ a a', x.outcome = .ok a ∧ x'.outcome = .ok a' ∧ e a = e a') := by
  have ho : e <$> x.outcome = e <$> x'.outcome := by
    rw [← outcome_map, h, outcome_map]
  refine ⟨by rw [← warnings_map e x, h, warnings_map], ?_⟩
  cases hx : x.outcome with
  | error error =>
    cases hx' : x'.outcome with
    | error error' =>
      rw [hx, hx'] at ho
      cases ho
      exact .inl ⟨error, rfl, rfl⟩
    | ok a' =>
      rw [hx, hx'] at ho
      cases ho
  | ok a =>
    cases hx' : x'.outcome with
    | error error' =>
      rw [hx, hx'] at ho
      cases ho
    | ok a' =>
      rw [hx, hx'] at ho
      exact .inr ⟨a, a', rfl, rfl, Except.ok.inj ho⟩

/-- What follows does not depend on what is forgotten. -/
theorem bind_congr_of_map {x x' : Traced α} {e : α → γ} (h : e <$> x = e <$> x')
    {f f' : α → Traced β} (hf : ∀ a a', e a = e a' → f a = f' a') : x >>= f = x' >>= f' := by
  obtain ⟨hw, ⟨error, hx, hx'⟩ | ⟨a, a', hx, hx', he⟩⟩ := agree_of_map h
  · rw [bind_of_error hx, bind_of_error hx', hw]
  · rw [bind_of_ok hx, bind_of_ok hx', hf a a' he, hw]

/-- Traversals keep what is the same for each element, apart from what `h` forgets. -/
theorem map_mapM {f g : α → Traced β} {h : β → γ} (hfg : ∀ a, h <$> f a = h <$> g a) (l : List α) :
    List.map h <$> l.mapM f = List.map h <$> l.mapM g := by
  have hcons : ∀ (k : α → Traced β) (a : α) (rest : List α), List.map h <$> (a :: rest).mapM k =
      (h <$> k a) >>= fun c => (List.map h <$> rest.mapM k) >>= fun cs => pure (c :: cs) := by
    intro k a rest
    simp only [List.mapM_cons, map_eq_pure_bind, bind_assoc, pure_bind, List.map_cons]
  induction l with
  | nil => rfl
  | cons a rest ih => rw [hcons, hcons, hfg, ih]

end Traced

theorem noteAll_cons (noted : List Warning) (first : Warning) (rest : List Warning) :
    noteAll noted (first :: rest) =
      noteAll (if noted.contains first then noted else noted ++ [first]) rest := rfl

theorem mem_noteAll {noted warnings : List Warning} {w : Warning} :
    w ∈ noteAll noted warnings ↔ w ∈ noted ∨ w ∈ warnings := by
  induction warnings generalizing noted with
  | nil => simp [noteAll]
  | cons first rest ih =>
    rw [noteAll_cons, ih, List.mem_cons]
    split
    · rename_i h
      have hm : first ∈ noted := by simpa using h
      grind
    · grind

theorem nodup_noteAll {noted : List Warning} (h : noted.Nodup) (warnings : List Warning) :
    (noteAll noted warnings).Nodup := by
  induction warnings generalizing noted with
  | nil => exact h
  | cons first rest ih =>
    rw [noteAll_cons]
    apply ih
    split
    · exact h
    · rename_i hc
      have hn : first ∉ noted := by simpa using hc
      rw [List.nodup_append]
      refine ⟨h, by simp, ?_⟩
      intro a ha b hb he
      rw [List.mem_singleton] at hb
      exact hn (hb ▸ he ▸ ha)

end SchemaModel
