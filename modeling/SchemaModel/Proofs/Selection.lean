import SchemaModel.Proofs.Computed
import SchemaModel.Proofs.Dispatch

/-!
When a discriminator value selects one subtype. The values that are mapped differ from each other,
but the name of a subtype that none is mapped to may be a value that is mapped to another subtype.
Where neither happens, and only there, no two subtypes share a value
(`Document.build_unambiguous_iff`).
-/

namespace SchemaModel

namespace DiscriminatorDescriptor

/-- No value occurs twice in the keys of one subtype or in those of two. -/
structure Unambiguous (x : DiscriminatorDescriptor) : Prop where
  once : ∀ s keys, x.subtypeKeys.find? s = some keys → (keys.map DiscriminatorKey.value).Nodup
  apart : ∀ s t keys others, x.subtypeKeys.find? s = some keys →
    x.subtypeKeys.find? t = some others → s ≠ t →
      ∀ value ∈ keys.map DiscriminatorKey.value, value ∉ others.map DiscriminatorKey.value

/-- Of an enum only members count. -/
def counts (x : DiscriminatorDescriptor) (m : TypeModel) (value : String) : Bool :=
  match x.enumType.bind m.enum? with
  | none => true
  | some e => (e.memberOfText? value).isSome

theorem map_value_keysOf (x : DiscriminatorDescriptor) (m : TypeModel) (values : List String) :
    (x.keysOf m values).map DiscriminatorKey.value = values.filter (x.counts m) := by
  unfold keysOf counts
  cases x.enumType.bind m.enum? with
  | none =>
    rw [List.map_map, List.filter_true]
    exact List.map_id values
  | some e =>
    induction values with
    | nil => rfl
    | cons value rest ih =>
      dsimp only at ih ⊢
      cases hv : e.memberOfText? value with
      | none => simp [hv, ih]
      | some member => simp [hv, ih, DiscriminatorKey.value]

end DiscriminatorDescriptor

/-- First components are distinct if no two entries share both, and one determines the second. -/
theorem nodup_map_fst_iff {entries : List (String × String)} :
    (entries.map Prod.fst).Nodup ↔ SingleValued entries ∧
      ∀ target, ((entries.filter fun e => e.2 == target).map Prod.fst).Nodup := by
  constructor
  · intro hn
    exact ⟨singleValued_of_nodup hn, fun target => hn.sublist (List.filter_sublist.map _)⟩
  · rintro ⟨hs, ht⟩
    refine List.pairwise_map.2 (List.pairwise_iff_forall_sublist.2 ?_)
    intro a b hab he
    have hmem := hab.subset
    have hsame : a.2 = b.2 :=
      hs a.1 a.2 b.2 (hmem List.mem_cons_self)
        (he ▸ hmem (List.mem_cons_of_mem _ List.mem_cons_self))
    -- both have one target, so they stand among the entries of it
    have hsub := (hab.filter fun e => e.2 == b.2).map Prod.fst
    have hpair : [a, b].filter (fun e => e.2 == b.2) = [a, b] := by simp [hsame]
    rw [hpair] at hsub
    have hn := (ht b.2).sublist hsub
    simp [he] at hn

namespace Graph

/-- The values that lead to the subtypes of a schema, as far as they count. -/
def subtypeRoutes (g : Graph) (m : TypeModel) (s : SchemaDescriptor)
    (x : DiscriminatorDescriptor) : List (String × String) :=
  (g.declaredRoutes s.name).filter fun e => s.subtypes.contains e.2 && x.counts m e.1

/-- No value is mapped to subtypes twice, and the name of a subtype to which none is mapped is not
mapped to another one. -/
structure Separates (g : Graph) (m : TypeModel) (s : SchemaDescriptor)
    (x : DiscriminatorDescriptor) : Prop where
  once : ((g.subtypeRoutes m s x).map Prod.fst).Nodup
  unnamed : ∀ subtype ∈ s.subtypes.keys, (∀ e ∈ g.declaredRoutes s.name, e.2 ≠ subtype) →
    ∀ e ∈ g.subtypeRoutes m s x, e.1 ≠ subtype

variable {g : Graph} {m : TypeModel} {s : SchemaDescriptor} {x : DiscriminatorDescriptor}

theorem valuesFor_cases (g : Graph) (owner subtype : String) :
    ((∀ e ∈ g.declaredRoutes owner, e.2 ≠ subtype) ∧ g.valuesFor owner subtype = [subtype]) ∨
      ((∃ e ∈ g.declaredRoutes owner, e.2 = subtype) ∧ g.valuesFor owner subtype =
        ((g.declaredRoutes owner).filter fun e => e.2 == subtype).map Prod.fst) := by
  unfold valuesFor
  dsimp only
  split
  · rename_i he
    rw [List.isEmpty_iff, List.map_eq_nil_iff, List.filter_eq_nil_iff] at he
    simp only [beq_iff_eq] at he
    exact .inl ⟨he, rfl⟩
  · rename_i he
    rw [List.isEmpty_iff, List.map_eq_nil_iff, List.filter_eq_nil_iff] at he
    simp only [beq_iff_eq, not_forall, not_not, exists_prop] at he
    exact .inr ⟨he, rfl⟩

theorem mem_valuesFor {owner subtype value : String} : value ∈ g.valuesFor owner subtype ↔
    (value, subtype) ∈ g.declaredRoutes owner ∨
      (value = subtype ∧ ∀ e ∈ g.declaredRoutes owner, e.2 ≠ subtype) := by
  rcases g.valuesFor_cases owner subtype with ⟨hnone, hv⟩ | ⟨⟨e, he, rfl⟩, hv⟩
  · rw [hv, List.mem_singleton]
    constructor
    · intro h
      exact .inr ⟨h, hnone⟩
    · rintro (h | ⟨h, -⟩)
      · exact absurd rfl (hnone _ h)
      · exact h
  · rw [hv]
    constructor
    · intro h
      exact .inl (by simpa using h)
    · rintro (h | ⟨-, hnone⟩)
      · simpa using h
      · exact absurd rfl (hnone e he)

theorem mem_subtypeRoutes {e : String × String} : e ∈ g.subtypeRoutes m s x ↔
    e ∈ g.declaredRoutes s.name ∧ e.2 ∈ s.subtypes.keys ∧ x.counts m e.1 := by
  rw [subtypeRoutes, List.mem_filter, Bool.and_eq_true, NameSet.contains_iff]

theorem nodup_values_iff {subtype : String} (hsub : subtype ∈ s.subtypes.keys) :
    ((g.valuesFor s.name subtype).filter (x.counts m)).Nodup ↔
      (((g.subtypeRoutes m s x).filter fun e => e.2 == subtype).map Prod.fst).Nodup := by
  rcases g.valuesFor_cases s.name subtype with ⟨hnone, hv⟩ | ⟨-, hv⟩
  · have hempty : (g.subtypeRoutes m s x).filter (fun e => e.2 == subtype) = [] := by
      rw [List.filter_eq_nil_iff]
      intro e he
      simpa using hnone e (mem_subtypeRoutes.1 he).1
    rw [hv, hempty]
    exact iff_of_true ((List.nodup_singleton subtype).filter _) List.nodup_nil
  · have hsame : (g.declaredRoutes s.name).filter (fun e => x.counts m e.1 && e.2 == subtype) =
        (g.subtypeRoutes m s x).filter fun e => e.2 == subtype := by
      rw [subtypeRoutes, List.filter_filter]
      apply List.filter_congr
      intro e _
      by_cases he : e.2 = subtype
      · rw [he, NameSet.contains_iff.2 hsub, Bool.and_comm, Bool.true_and]
      · rw [beq_eq_false_iff_ne.2 he, Bool.and_false, Bool.false_and]
    rw [hv, List.filter_map, List.filter_filter, ← hsame]
    rfl

theorem unambiguous_iff (hkeys : ∀ t keys, x.subtypeKeys.find? t = some keys ↔
    t ∈ s.subtypes.keys ∧ keys = x.keysOf m (g.valuesFor s.name t)) :
    x.Unambiguous ↔ g.Separates m s x := by
  have hmem : ∀ t value, value ∈ (x.keysOf m (g.valuesFor s.name t)).map DiscriminatorKey.value ↔
      value ∈ g.valuesFor s.name t ∧ x.counts m value := by
    intro t value
    rw [x.map_value_keysOf, List.mem_filter]
  constructor
  · intro hu
    have hapart : ∀ e ∈ g.subtypeRoutes m s x, ∀ t ∈ s.subtypes.keys, e.1 ∈ g.valuesFor s.name t →
        e.2 = t := by
      intro e he t ht hv
      obtain ⟨hroute, htarget, hcounts⟩ := mem_subtypeRoutes.1 he
      by_contra hne
      exact hu.apart e.2 t _ _ ((hkeys _ _).2 ⟨htarget, rfl⟩) ((hkeys _ _).2 ⟨ht, rfl⟩) hne e.1
        ((hmem _ _).2 ⟨mem_valuesFor.2 (.inl hroute), hcounts⟩) ((hmem _ _).2 ⟨hv, hcounts⟩)
    refine ⟨nodup_map_fst_iff.2 ⟨?_, ?_⟩, ?_⟩
    · intro value t u ht hu
      obtain ⟨hroute, htarget, -⟩ := mem_subtypeRoutes.1 hu
      exact hapart _ ht u htarget (mem_valuesFor.2 (.inl hroute))
    · intro t
      by_cases ht : t ∈ s.subtypes.keys
      · rw [← nodup_values_iff ht, ← x.map_value_keysOf]
        exact hu.once t _ ((hkeys _ _).2 ⟨ht, rfl⟩)
      · have hempty : (g.subtypeRoutes m s x).filter (fun e => e.2 == t) = [] := by
          rw [List.filter_eq_nil_iff]
          intro e he htarget
          exact ht (beq_iff_eq.1 htarget ▸ (mem_subtypeRoutes.1 he).2.1)
        rw [hempty]
        exact List.nodup_nil
    · intro t ht hnone e he hname
      have htarget := hapart e he t ht (mem_valuesFor.2 (.inr ⟨hname, hnone⟩))
      exact hnone e (mem_subtypeRoutes.1 he).1 htarget
  · intro hs
    obtain ⟨hsingle, hnodup⟩ := nodup_map_fst_iff.1 hs.once
    refine ⟨?_, ?_⟩
    · intro t keys ht
      obtain ⟨hsub, rfl⟩ := (hkeys t keys).1 ht
      rw [x.map_value_keysOf, nodup_values_iff hsub]
      exact hnodup t
    · intro t u keys others ht hu hne value hv hw
      obtain ⟨htsub, rfl⟩ := (hkeys t keys).1 ht
      obtain ⟨husub, rfl⟩ := (hkeys u others).1 hu
      obtain ⟨hv, hcounts⟩ := (hmem t value).1 hv
      have hw := ((hmem u value).1 hw).1
      -- a value that is mapped leads to one subtype, and a name that is not mapped to its own
      rcases mem_valuesFor.1 hv with hv | ⟨rfl, hvnone⟩
      · have hroute := mem_subtypeRoutes.2 ⟨hv, htsub, hcounts⟩
        rcases mem_valuesFor.1 hw with hw | ⟨rfl, hwnone⟩
        · exact hne (hsingle value t u hroute (mem_subtypeRoutes.2 ⟨hw, husub, hcounts⟩))
        · exact hs.unnamed value husub hwnone _ hroute rfl
      · rcases mem_valuesFor.1 hw with hw | ⟨rfl, -⟩
        · exact hs.unnamed value htsub hvnone _ (mem_subtypeRoutes.2 ⟨hw, husub, hcounts⟩) rfl
        · exact hne rfl

end Graph

/-- In a model that is built the values of a discriminator select one subtype each exactly if the
declared mapping separates the subtypes. -/
theorem Document.build_unambiguous_iff [Libraries] {d : Document} {config : Config} {b : Built}
    (h : d.build config = .ok b) : ∃ g, d.resolve d.names = .ok g ∧
      ∀ s ∈ b.model.schemas.values, ∀ x, s.discriminator? = some x →
        (x.Unambiguous ↔ g.Separates b.model s x) := by
  obtain ⟨g, hierarchy, hg, hm⟩ := build_models h
  refine ⟨g, hg, ?_⟩
  intro s hmem x hx
  have hs := hm.describes_of_mem hmem
  have hdisc := hs.discriminator
  rw [hx] at hdisc
  obtain ⟨found, hfound, rfl⟩ := Option.map_eq_some_iff.1 hdisc.symm
  have hd := hm.intact.discriminated hm.hierarchy_eq hfound
  apply Graph.unambiguous_iff
  intro t keys
  rw [hd.keys, hm.keysFor_eq hd, hs.subtypes, Graph.mem_childrenOf hm.hierarchy_eq]

/-- Two subtypes, of which the name of the second is mapped to the first. -/
def mappedName : Document :=
  ⟨"3.0.3", default,
    [("P", .schema { Schema.empty with
        type := some (.single .object)
        properties := [("k", .schema { Schema.empty with type := some (.single .string) })]
        discriminator := some ⟨"k", [("B", "A")]⟩ }),
      ("A", .schema { Schema.empty with allOf := [.ref "#/components/schemas/P"] }),
      ("B", .schema { Schema.empty with allOf := [.ref "#/components/schemas/P"] })], by decide⟩

theorem build_unambiguous_iff_mapped_name : ∃ b, mappedName.build .standard = .ok b ∧
    ∃ g, mappedName.resolve mappedName.names = .ok g ∧
      ∀ s ∈ b.model.schemas.values, ∀ x, s.discriminator? = some x →
        (x.Unambiguous ↔ g.Separates b.model s x) := by
  have hok : (mappedName.build .standard).toOption.isSome = true := by cbv
  obtain ⟨b, hb⟩ := exists_eq_ok_of_isSome hok
  exact ⟨b, hb, Document.build_unambiguous_iff hb⟩

/-- One value selects both subtypes. -/
theorem mappedName_not_unambiguous : ∃ b s x, mappedName.build .standard = .ok b ∧
    s ∈ b.model.schemas.values ∧ s.discriminator? = some x ∧
      x.subtypeKeys.find? "A" = some [.stringKey "B"] ∧
      x.subtypeKeys.find? "B" = some [.stringKey "B"] ∧ ¬x.Unambiguous := by
  have hrun : ((mappedName.build .standard).toOption.bind fun b =>
      (b.model.schemas.find? "P").bind fun s => s.discriminator?.map fun x =>
        (x.subtypeKeys.find? "A", x.subtypeKeys.find? "B")) =
          some (some [.stringKey "B"], some [.stringKey "B"]) := by cbv
  obtain ⟨b, hb, hrun⟩ := toOption_bind_eq_some_iff.1 hrun
  obtain ⟨s, hs, hrun⟩ := Option.bind_eq_some_iff.1 hrun
  obtain ⟨x, hx, hrun⟩ := Option.map_eq_some_iff.1 hrun
  obtain ⟨hA, hB⟩ := Prod.mk.inj hrun
  refine ⟨b, s, x, hb, NameMap.mem_values_iff.2 ⟨"P", hs⟩, hx, hA, hB, ?_⟩
  intro hu
  have hapart := hu.apart "A" "B" _ _ hA hB (by decide) "B"
  exact hapart (by decide) (by decide)

end SchemaModel
