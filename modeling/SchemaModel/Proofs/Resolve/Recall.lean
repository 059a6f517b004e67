import SchemaModel.Proofs.Resolve.Equations
import SchemaModel.Resolve.Recall

/-!
Types with memory. A walk over types needs the way of typing only, and leaves it as it found it,
also where it fails. So on a memory with a given way it finds what the walk without memory finds on
that way, and notes its warnings (`typeNodeM_traces`). With as much fuel as there are components
off the way it never stops short (`componentTypeM_traces`).
-/

namespace SchemaModel

theorem noteAll_append (noted a b : List Warning) :
    noteAll noted (a ++ b) = noteAll (noteAll noted a) b := List.foldl_append

namespace Recall

variable {α β : Type} {path : List String}

/-- On each memory with the given way of typing, the computation is the one without memory. -/
def Traces (path : List String) (x : Recall α) (y : Traced α) : Prop :=
  ∀ m, m.typing = path → x m = trace y m

theorem traces_trace (y : Traced α) : Traces path (trace y) y := fun _ _ => rfl

theorem traces_pure (a : α) : Traces path (pure a) (pure a) := fun _ _ => rfl

theorem bind_apply (x : Recall α) (f : α → Recall β) (m : Memory) :
    (x >>= f) m = match x m with
      | (m, .error e) => (m, .error e)
      | (m, .ok a) => f a m := rfl

theorem bind_of_ok {x : Recall α} {f : α → Recall β} {m left : Memory} {a : α}
    (h : x m = (left, .ok a)) : (x >>= f) m = f a left := by
  rw [bind_apply, h]

theorem bind_of_error {x : Recall α} {f : α → Recall β} {m : Memory} {e : Stop}
    (h : (x m).2 = .error e) : ((x >>= f) m).2 = .error e := by
  rw [bind_apply]
  cases hx : x m with
  | mk left outcome =>
    rw [hx] at h
    cases h
    rfl

theorem bind_eq_ok {x : Recall α} {f : α → Recall β} {m after : Memory} {b : β}
    (h : (x >>= f) m = (after, .ok b)) :
    ∃ left a, x m = (left, .ok a) ∧ f a left = (after, .ok b) := by
  rw [bind_apply] at h
  cases hx : x m with
  | mk left outcome =>
    rw [hx] at h
    cases outcome with
    | error e => cases h
    | ok a => exact ⟨left, a, rfl, h⟩

theorem error_of_bind {x : Recall α} {f : α → Recall β} {m : Memory} {e : Stop}
    (h : ((x >>= f) m).2 = .error e) :
    (x m).2 = .error e ∨ ∃ left a, x m = (left, .ok a) ∧ (f a left).2 = .error e := by
  rw [bind_apply] at h
  cases hx : x m with
  | mk left outcome =>
    rw [hx] at h
    cases outcome with
    | error e' =>
      cases h
      exact .inl rfl
    | ok a => exact .inr ⟨left, a, rfl, h⟩

theorem error_of_trace {x : Traced α} {m : Memory} {e : Stop} (h : (trace x m).2 = .error e) :
    ∃ error, x.outcome = .error error ∧ e = .failed error := by
  cases hx : x.outcome with
  | error error =>
    rw [trace, hx] at h
    cases h
    exact ⟨error, rfl, rfl⟩
  | ok a =>
    rw [trace, hx] at h
    cases h

theorem ok_of_lift {x : Except ModelError α} {m left : Memory} {a : α}
    (h : trace (Traced.lift x) m = (left, .ok a)) : x = .ok a ∧ left = m := by
  cases x with
  | error error => cases h
  | ok b =>
    cases h
    exact ⟨rfl, rfl⟩

theorem Traces.bind {x : Recall α} {y : Traced α} {f : α → Recall β} {g : α → Traced β}
    (hx : Traces path x y) (hf : ∀ a, Traces path (f a) (g a)) :
    Traces path (x >>= f) (y >>= g) := by
  intro m hm
  rw [bind_apply, hx m hm]
  obtain ⟨outcome, warnings⟩ := y
  cases outcome with
  | error e => rfl
  | ok a =>
    have hnext : f a (m.note warnings) = trace (g a) (m.note warnings) := hf a _ hm
    have hnoted : (m.note warnings).note (g a).warnings = m.note (warnings ++ (g a).warnings) := by
      simp only [Memory.note, noteAll_append]
    change f a (m.note warnings) = (m.note (warnings ++ (g a).warnings), _)
    rw [hnext, ← hnoted]
    rfl

/-- What is put on the way for a while is off it again, whatever came of the work. -/
theorem Traces.whileTyping {name : String} {x : Recall α} {y : Traced α}
    (h : Traces (path ++ [name]) x y) : Traces path (whileTyping name x) y := by
  intro m hm
  have hx : x { m with typing := m.typing ++ [name] } =
      trace y { m with typing := m.typing ++ [name] } := h _ (by rw [hm])
  unfold Recall.whileTyping
  rw [hx]
  simp only [trace, Memory.note, List.dropLast_concat]

end Recall

namespace Scope

open Recall

variable {scope : Scope} {path : List String} {fuel : Nat}

theorem typeNodeM_traces
    (hc : ∀ name, Traces path (scope.componentTypeM fuel name) (scope.componentType path name))
    (context base : String) (node : Node) (pointer : Pointer) :
    Traces path (scope.typeNodeM fuel context base node pointer)
      (scope.typeNode path context base node pointer) := by
  induction hsize : sizeOf node using Nat.strongRecOn generalizing node base pointer with
  | ind n ih =>
    have href : ∀ target, Traces path
        (do
          let name ← trace (Traced.lift (scope.document.resolveRef context target))
          let type ← scope.componentTypeM fuel name
          return (type, []))
        (do
          let name ← Traced.lift (scope.document.resolveRef context target)
          let type ← scope.componentType path name
          return (type, ([] : List Inline))) := fun target =>
      (traces_trace _).bind fun name => (hc name).bind fun type => traces_pure _
    cases node with
    | ref target =>
      rw [typeNodeM, typeNode_ref]
      exact href target
    | schema s =>
      rw [typeNode_schema, typeNodeM]
      cases hw : s.singleAllOfRef? with
      | some target => exact href target
      | none =>
        have hsmaller : ∀ inner : Node, sizeOf inner < sizeOf s → sizeOf inner < n := by
          intro inner hlt
          rw [← hsize, Node.schema.sizeOf_spec]
          omega
        dsimp only
        -- the other categories go no further, so no way is looked at
        split
        · rename_i union h
          simp only [h]
          exact ih _ (hsmaller _ (Schema.category_nullableOf_lt h)) _ _ _ rfl
        · rename_i items h
          simp only [h]
          exact (ih _ (hsmaller _ (Schema.category_array_lt h)) _ _ _ rfl).bind fun _ =>
            traces_pure _
        · rename_i values h
          simp only [h]
          exact (ih _ (hsmaller _ (Schema.category_map_lt h)) _ _ _ rfl).bind fun _ =>
            traces_pure _
        · rename_i hnullable harray hmap
          have hway : scope.typeNode [] context base (.schema s) pointer =
              scope.typeNode path context base (.schema s) pointer := by
            rw [typeNode_schema, typeNode_schema]
            simp only [hw]
            split
            · rfl
            · rfl
            · rename_i h
              exact (hnullable _ h).elim
            · rfl
            · rfl
            · rename_i h
              exact (harray _ h).elim
            · rfl
            · rename_i h
              exact (hmap _ h).elim
            · rfl
          rw [hway, typeNode_schema]
          simp only [hw]
          exact traces_trace _

theorem namedTypeM_traces
    (hc : ∀ name, Traces path (scope.componentTypeM fuel name) (scope.componentType path name))
    (name : String) (s : Schema) (pointer : Pointer) :
    Traces path (scope.namedTypeM fuel name s pointer) (scope.namedType path name s pointer) := by
  induction hsize : sizeOf s using Nat.strongRecOn generalizing s pointer with
  | ind n ih =>
    rw [namedType_eq, namedTypeM]
    split
    · rename_i keyword index inner h
      simp only [h]
      refine ih _ ?_ _ _ rfl
      have hlt := Schema.category_nullableOf_lt h
      simp only [Node.schema.sizeOf_spec] at hlt
      omega
    · rename_i keyword index target h
      simp only [h]
      exact (traces_trace _).bind fun name => hc name
    · rename_i items h
      simp only [h]
      exact (typeNodeM_traces hc _ _ _ _).bind fun _ => traces_pure _
    · rename_i values h
      simp only [h]
      exact (typeNodeM_traces hc _ _ _ _).bind fun _ => traces_pure _
    · rename_i hinner href harray hmap
      have hway : scope.namedType [] name s pointer = scope.namedType path name s pointer := by
        rw [namedType_eq, namedType_eq]
        split
        · rfl
        · rfl
        · rfl
        · rename_i h
          exact (hinner _ _ _ h).elim
        · rename_i h
          exact (href _ _ _ h).elim
        · rfl
        · rename_i h
          exact (harray _ h).elim
        · rfl
        · rename_i h
          exact (hmap _ h).elim
        · rfl
      rw [hway, namedType_eq]
      exact traces_trace _

/-- Each component that is put on the way is one less off it. -/
theorem componentTypeM_traces (hf : scope.document.unseen path < fuel) (name : String) :
    Traces path (scope.componentTypeM fuel name) (scope.componentType path name) := by
  induction fuel generalizing path name with
  | zero => omega
  | succ fuel ih =>
    intro m hm
    rw [componentType_eq, componentTypeM]
    change (if name ∈ m.typing then stop (.failed (typingCycle m.typing name)) else _) m = _
    rw [hm]
    by_cases hn : name ∈ path
    · rw [if_pos hn, if_pos hn]
      rfl
    · rw [if_neg hn, if_neg hn]
      cases hd : scope.document.definition? name with
      | none => rfl
      | some s =>
        have hlt := scope.document.unseen_append_lt (Document.mem_names_of_definition hd) hn
        have hnext : ∀ other, Traces (path ++ [name]) (scope.componentTypeM fuel other)
            (scope.componentType (path ++ [name]) other) := fun other => ih (by omega) other
        exact (namedTypeM_traces hnext name s _).whileTyping m hm

theorem typeNodeM_traces_nil (context base : String) (node : Node) (pointer : Pointer) :
    Traces [] (scope.typeNodeM scope.depth context base node pointer)
      (scope.typeNode [] context base node pointer) := by
  apply typeNodeM_traces
  intro name
  apply componentTypeM_traces
  have hle : scope.document.unseen [] ≤ scope.document.names.length := List.length_filter_le _ _
  rw [depth]
  omega

variable [Libraries]

theorem resolvePropertyM_traces (owner : String) (pointer : Pointer) (key : String) (node : Node) :
    Traces [] (scope.resolvePropertyM owner pointer key node)
      (scope.resolveProperty owner pointer key node) :=
  (typeNodeM_traces_nil _ _ _ _).bind fun _ => (traces_trace _).bind fun _ =>
    (traces_trace _).bind fun _ => (traces_trace _).bind fun _ => traces_pure _

omit [Libraries] in
theorem additionalTypeM_traces (name : String) (pointer : Pointer) (additional : Additional) :
    Traces [] (scope.additionalTypeM name pointer additional)
      (scope.additionalType name pointer additional) := by
  cases additional with
  | flag allowed => exact traces_trace _
  | values node => exact (typeNodeM_traces_nil _ _ _ _).bind fun _ => traces_pure _

theorem declareOwnM_traces (name : String) (pointer : Pointer) (o : ObjectShape)
    (properties : List (String × Node)) :
    Traces [] (scope.declareOwnM name pointer o properties)
      (scope.declareOwn name pointer o properties) := by
  induction properties generalizing o with
  | nil => exact traces_pure o
  | cons e rest ih =>
    obtain ⟨key, node⟩ := e
    rw [declareOwnM, declareOwn]
    exact (resolvePropertyM_traces _ _ _ _).bind fun p => (traces_trace _).bind fun o => ih o

/-- A schema's own keywords need no memory of what was merged. -/
theorem mergeOwnM_traces (name : String) (pointer : Pointer) (s : Schema) (o : ObjectShape) :
    Traces [] (scope.mergeOwnM name pointer s o) (scope.mergeOwn name pointer s o) := by
  unfold mergeOwnM mergeOwn
  refine (declareOwnM_traces _ _ _ _).bind fun o => ?_
  cases s.additional with
  | none => exact traces_pure _
  | some additional => exact (additionalTypeM_traces _ _ _).bind fun _ => traces_pure _

theorem outlineM_eq (scope : Scope) (name : String) (pointer : Pointer) (s : Schema) :
    scope.outlineM name pointer s =
      match s.category with
      | .nullableOf ⟨keyword, index, .schema inner⟩ =>
        scope.outlineM name (pointer.push (keyword.step index)) inner
      | .object => do
        let o ← scope.objectShapeM name pointer s
        return .shape (.object o) o.inlines
      | .array (some items) => do
        let (type, inlines) ←
          scope.typeNodeM scope.depth name (name ++ "Item") items (pointer.push .items)
        return .shape (.array type) inlines
      | .map (some values) => do
        let (type, inlines) ←
          scope.typeNodeM scope.depth name (name ++ "Value") values (pointer.push .additional)
        return .shape (.map type) inlines
      | _ => trace (scope.outline name pointer s) := by
  rw [outlineM]
  split
  · rename_i h
    simp only [h]
  · rename_i h
    simp only [h]
  · rename_i h
    simp only [h]
  · rename_i h
    simp only [h]
  · rename_i hinner hobject harray hmap
    split
    · rename_i h
      exact (hinner _ _ _ h).elim
    · rename_i h
      exact (hobject h).elim
    · rename_i h
      exact (harray _ h).elim
    · rename_i h
      exact (hmap _ h).elim
    · rfl

end Scope

end SchemaModel
