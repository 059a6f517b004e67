import SchemaModel.Proofs.Hierarchy.Discrimination
import SchemaModel.Proofs.Hierarchy.Linear

/-!
What is visible on a schema. Each key is shown once: an own declaration hides that of the
supertype, and the declaration of a discriminator is taken over from a subtype only where there is
neither (`shown?_eq`). So everything that is visible on a supertype is visible below it, among it
every discriminator further up (`isSome_shown?_of_ancestor`).
-/

namespace SchemaModel

open Relation

theorem find?_key_eq_some_iff {α : Type} {key : α → String} {l : List α} (hn : (l.map key).Nodup)
    {k : String} {a : α} : l.find? (fun b => key b == k) = some a ↔ a ∈ l ∧ key a = k := by
  constructor
  · intro h
    exact ⟨List.mem_of_find?_eq_some h, by simpa using List.find?_some h⟩
  · rintro ⟨hm, rfl⟩
    cases hf : l.find? fun b => key b == key a with
    | none =>
      have hne := List.find?_eq_none.1 hf a hm
      exact absurd (beq_self_eq_true _) hne
    | some b =>
      have hk : key b = key a := by simpa using List.find?_some hf
      rw [List.inj_on_of_nodup_map hn (List.mem_of_find?_eq_some hf) hm hk]

def Visible.property? (v : Visible) (key : String) : Option ResolvedProperty :=
  v.properties.find? fun p => p.key == key

theorem Visible.mem_keys_iff {v : Visible} {key : String} :
    key ∈ v.keys ↔ (v.property? key).isSome := mem_map_key_iff

namespace Classifier

variable {c : Classifier}

/-- The property that is shown under a key. -/
def shown? (c : Classifier) (name key : String) : Option ResolvedProperty :=
  (c.visible name).property? key

/-- What is visible above a schema. -/
def above (c : Classifier) (name : String) : Visible :=
  match c.hierarchy.parent? name with
  | some parent => c.visible parent
  | none => .empty

/-- The declaration of a schema's own discriminator, be it that of the schema or of a subtype. -/
def lent? (c : Classifier) (name key : String) : Option ResolvedProperty :=
  (c.hierarchy.discrimination? name).bind fun d =>
    if d.property = key then some d.declaration else none

/-- What is visible above a schema is what its supertype shows. -/
theorem above_property? {name parent : String} (hp : c.hierarchy.parent? name = some parent)
    (key : String) : (c.above name).property? key = c.shown? parent key := by
  rw [above, hp]
  rfl

theorem inheritedKeys_eq (c : Classifier) (name : String) :
    c.inheritedKeys name = (c.above name).keys := by
  unfold inheritedKeys above
  cases c.hierarchy.parent? name with
  | none => rfl
  | some parent => rfl

theorem visible_eq (ha : c.hierarchy.Acyclic) (name : String) :
    c.visible name = c.extend name (c.above name) := by
  rw [visible, visibleAlong, above]
  cases hp : c.hierarchy.parent? name with
  | none => rw [Hierarchy.ancestors_eq_nil ha hp]; rfl
  | some parent => rw [Hierarchy.ancestors_eq_cons ha hp]; rfl

section

variable (hg : c.graph.Intact) (hh : c.graph.hierarchy = .ok c.hierarchy)

include hg

theorem ownProperties_nodup (name : String) :
    ((c.graph.ownProperties name).map ResolvedProperty.key).Nodup := by
  unfold Graph.ownProperties
  cases ho : c.graph.object? name with
  | none => exact List.nodup_nil
  | some o =>
    obtain ⟨s, hs, hshape⟩ := Graph.object?_eq_some ho
    exact hg.keys _ s o hs hshape

omit hg in
theorem find?_ownProperties (c : Classifier) (name key : String) :
    (c.graph.ownProperties name).find? (fun p => p.key == key) = c.graph.property? name key := by
  unfold Graph.ownProperties Graph.property?
  cases c.graph.object? name with
  | none => rfl
  | some o => rfl

include hh

/-- A declaration is taken over where its key is neither declared nor inherited. -/
theorem find?_borrowed (name key : String) (inherited : Visible) :
    (c.borrowed name inherited).find? (fun p => p.key == key) =
      if (c.graph.property? name key).isSome || (inherited.property? key).isSome then none
      else c.lent? name key := by
  unfold borrowed lent?
  cases hd : c.hierarchy.discrimination? name with
  | none => simp
  | some d =>
    have hdisc := hg.discriminated hh hd
    dsimp only [Option.bind_some]
    by_cases hk : d.property = key
    · subst hk
      have hdeclared := hdisc.declared
      simp only [Visible.property?, List.isSome_find?, if_true]
      cases hon : d.declaredOnSuper with
      | true => simp [hon, hdeclared]
      | false =>
        simp only [hon, Bool.false_eq_true, if_false] at hdeclared
        simp only [hdeclared, Option.isSome_none, Bool.or_false, Bool.false_or]
        split
        · rfl
        · simp [hdisc.key]
    · have hne : (d.declaration.key == key) = false := by simpa [hdisc.key] using hk
      rw [if_neg hk, ite_self]
      split
      · rfl
      · simp [hne]

theorem nodup_extend {name : String} {inherited : Visible} (hn : inherited.keys.Nodup) :
    (c.extend name inherited).keys.Nodup := by
  have hkept : ((inherited.properties.filter fun p => (c.graph.property? name p.key).isNone).map
      ResolvedProperty.key).Nodup := hn.sublist (List.filter_sublist.map _)
  have hborrowed : ((c.borrowed name inherited).map ResolvedProperty.key).Nodup := by
    unfold borrowed
    split
    · split <;> simp
    · exact List.nodup_nil
  rw [Visible.keys, extend_properties, List.map_append, List.map_append]
  refine (hkept.append hborrowed ?_).append (ownProperties_nodup hg name) ?_
  · intro key hk hb
    obtain ⟨p, hp, rfl⟩ := List.mem_map.1 hk
    obtain ⟨q, hq, he⟩ := List.mem_map.1 hb
    obtain ⟨d, hd, rfl, -, hnew⟩ := mem_borrowed hq
    rw [(hg.discriminated hh hd).key] at he
    exact hnew (he ▸ List.mem_map.2 ⟨p, List.mem_of_mem_filter hp, rfl⟩)
  · intro key hk ho
    rw [mem_map_key_iff, find?_ownProperties] at ho
    have hnone : c.graph.property? name key = none := by
      rcases List.mem_append.1 hk with hk | hk
      · obtain ⟨p, hp, rfl⟩ := List.mem_map.1 hk
        simpa using (List.mem_filter.1 hp).2
      · obtain ⟨p, hp, rfl⟩ := List.mem_map.1 hk
        obtain ⟨d, hd, rfl, hnone, -⟩ := mem_borrowed hp
        rw [(hg.discriminated hh hd).key]
        exact hnone
    rw [hnone] at ho
    cases ho

theorem property?_extend (name key : String) (inherited : Visible) :
    (c.extend name inherited).property? key =
      ((c.graph.property? name key).or (inherited.property? key)).or (c.lent? name key) := by
  have hkept : (inherited.properties.filter fun p => (c.graph.property? name p.key).isNone).find?
      (fun p => p.key == key) = if (c.graph.property? name key).isSome then none
        else inherited.property? key := by
    rw [List.find?_filter]
    cases ho : c.graph.property? name key with
    | none =>
      rw [Option.isSome_none, if_neg Bool.false_ne_true, Visible.property?]
      congr 1
      funext p
      by_cases hk : p.key = key
      · simp [hk, ho]
      · simp [hk]
    | some p =>
      rw [Option.isSome_some, if_pos rfl, List.find?_eq_none]
      intro q _
      by_cases hk : q.key = key
      · simp [hk, ho]
      · simp [hk]
  rw [Visible.property?, extend_properties, List.find?_append, List.find?_append, hkept,
    find?_borrowed hg hh, find?_ownProperties]
  cases c.graph.property? name key with
  | some p => simp
  | none => cases inherited.property? key <;> simp

theorem nodup_visible (name : String) : (c.visible name).keys.Nodup := by
  have ha := Graph.acyclic_of_hierarchy hh
  induction name using (Graph.wellFounded_below ha).induction with
  | _ name ih =>
    rw [visible_eq ha]
    apply nodup_extend hg hh
    unfold above
    split
    · rename_i parent hp
      exact ih parent hp
    · exact List.nodup_nil

theorem mem_visible_iff {name : String} {p : ResolvedProperty} :
    p ∈ (c.visible name).properties ↔ c.shown? name p.key = some p := by
  rw [shown?, Visible.property?, find?_key_eq_some_iff (nodup_visible hg hh name)]
  simp

/-- A schema shows its own declaration, or else what its supertype shows, or else the declaration
of its discriminator. -/
theorem shown?_eq (name key : String) : c.shown? name key =
    ((c.graph.property? name key).or ((c.above name).property? key)).or (c.lent? name key) := by
  rw [shown?, visible_eq (Graph.acyclic_of_hierarchy hh), property?_extend hg hh]

theorem isSome_shown?_of_above {name key : String} (h : ((c.above name).property? key).isSome) :
    (c.shown? name key).isSome := by
  rw [shown?_eq hg hh, Option.isSome_or, Option.isSome_or, h]
  simp

theorem isSome_shown?_of_isOwn {name key : String} (h : c.isOwn name key) :
    (c.shown? name key).isSome := by
  obtain ⟨d, hd, hk⟩ := isOwn_iff.1 h
  rw [shown?_eq hg hh, Option.isSome_or, lent?, hd, Option.bind_some, if_pos hk]
  simp

theorem isSome_shown?_of_below {name super key : String}
    (hb : ReflTransGen c.hierarchy.Below name super) (h : (c.shown? super key).isSome) :
    (c.shown? name key).isSome := by
  induction hb using ReflTransGen.head_induction_on with
  | refl => exact h
  | @head name parent hp _ ih =>
    apply isSome_shown?_of_above hg hh
    rw [above_property? hp]
    exact ih

/-- The discriminator of every ancestor is visible on the supertype. -/
theorem isSome_above_of_ancestor {name key : String} {d : Discrimination}
    (hd : c.ancestorDiscrimination? name key = some d) : ((c.above name).property? key).isSome := by
  have ha := Graph.acyclic_of_hierarchy hh
  obtain ⟨hk, owner, hm, howner⟩ := ancestorDiscrimination?_eq_some hd
  have hown := isSome_shown?_of_isOwn hg hh (isOwn_iff.2 ⟨d, howner, hk⟩)
  obtain ⟨parent, hp, hr⟩ := TransGen.head'_iff.1 ((Hierarchy.mem_ancestors ha).1 hm)
  rw [above_property? hp]
  exact isSome_shown?_of_below hg hh hr hown

end

end Classifier

end SchemaModel
