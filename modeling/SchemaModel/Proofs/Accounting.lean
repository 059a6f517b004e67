import SchemaModel.Proofs.Computed
import SchemaModel.Proofs.Declared
import SchemaModel.Proofs.Resolve.AliasChain

/-!
What becomes of the components of a document. In a model that is built each component has its own
descriptor or is an alias of one that has, whatever else the model holds is inline, and the
counters are those of a recount (`Document.build_accounts`).
-/

namespace SchemaModel

open Relation

namespace Document

/-- A component that is only another name: a reference, or a union of one with null. -/
def IsAlias (d : Document) (name : String) : Prop :=
  ∃ path, d.find? name = some (.ref path) ∨
    ∃ s u, d.find? name = some (.schema s) ∧ s.nullableUnion? = some u ∧ u.inner = .ref path

variable {d : Document} {name target : String}

theorem isAlias_iff : d.IsAlias name ↔
    ∃ node path, d.find? name = some node ∧ node.aliasTarget? = some path := by
  constructor
  · rintro ⟨path, hf | ⟨s, ⟨keyword, index, inner⟩, hf, hu, rfl⟩⟩
    · exact ⟨.ref path, path, hf, rfl⟩
    · exact ⟨.schema s, path, hf, by rw [Node.aliasTarget?, hu]⟩
  · rintro ⟨node, path, hf, ha⟩
    cases node with
    | ref other => exact ⟨other, .inl hf⟩
    | schema s =>
      unfold Node.aliasTarget? at ha
      dsimp only at ha
      split at ha
      · rename_i hu
        exact ⟨_, .inr ⟨s, _, hf, hu, rfl⟩⟩
      · cases ha

theorem IsAlias.mem_names (h : d.IsAlias name) : name ∈ d.names := by
  obtain ⟨node, -, hf, -⟩ := isAlias_iff.1 h
  exact mem_names_of_find hf

/-- A component either stands for itself or is an alias. -/
theorem canonical_iff_not_isAlias (h : name ∈ d.names) : d.Canonical name ↔ ¬d.IsAlias name := by
  obtain ⟨node, hf⟩ := Option.isSome_iff_exists.1 (lookup_isSome_iff.2 h)
  have hfind : d.find? name = some node := hf
  rw [isAlias_iff, Canonical]
  simp only [hfind, Option.some.injEq, exists_and_left, exists_eq_left']
  rw [Option.eq_none_iff_forall_ne_some, not_exists]

end Document

section

variable [Libraries]

namespace Resolver

variable {scope : Scope} {order : List String} {r : Resolver} (hr : Complete scope order r)

include hr

/-- The schemas that are not inline are those of components. -/
theorem Complete.inline_iff (ha : scope.AvoidsComponents) (hn : r.inlineRenames = [])
    {name : String} {s : Resolved} (hf : r.toGraph.schemas.find? name = some s) :
    s.inline = false ↔ name ∈ scope.document.names := by
  obtain ⟨site, shape, hv, -, rfl, rfl⟩ := (hr.find?_toGraph hn).1 hf
  constructor
  · intro hi
    exact (hv.grounded.canonical hi).mem_names
  · intro hm
    by_contra hi
    obtain ⟨base, hb⟩ := hv.grounded.called (Bool.of_not_eq_false hi)
    rw [hb] at hm
    exact ha.inlineName_notMem base _ hm

/-- An alias is noted with the component at the end of its chain. -/
theorem Complete.find?_aliases_iff_reaches (hall : ∀ name ∈ scope.document.names, name ∈ order)
    {name target : String} : r.aliases.find? name = some target ↔
      scope.document.IsAlias name ∧ ReflTransGen scope.document.AliasOf name target ∧
        scope.document.Canonical target := by
  rw [hr.find?_aliases, Document.followAlias_eq_ok_iff]
  constructor
  · rintro ⟨-, ⟨hreach, hc⟩, hne⟩
    rcases hreach.cases_head with rfl | ⟨next, ⟨node, path, hf, ht, -⟩, -⟩
    · exact absurd rfl hne
    · exact ⟨Document.isAlias_iff.2 ⟨node, path, hf, ht⟩, hreach, hc⟩
  · rintro ⟨halias, hreach, hc⟩
    refine ⟨hall name halias.mem_names, ⟨hreach, hc⟩, ?_⟩
    rintro rfl
    exact (Document.canonical_iff_not_isAlias halias.mem_names).1 hc halias

theorem Complete.exists_alias (hall : ∀ name ∈ scope.document.names, name ∈ order)
    {name : String} (h : scope.document.IsAlias name) :
    ∃ target, r.aliases.find? name = some target := by
  obtain ⟨target, ht, -⟩ := hr.noted name (hall name h.mem_names)
  obtain ⟨hreach, hc⟩ := Document.followAlias_eq_ok_iff.1 ht
  exact ⟨target, (hr.find?_aliases_iff_reaches hall).2 ⟨h, hreach, hc⟩⟩

end Resolver

/-- Where a graph has the components of a document: those that are aliases with the ends of their
chains, the others under their names. All other schemas are inline. -/
structure Graph.AccountsFor (g : Graph) (d : Document) : Prop where
  inline_iff : ∀ name s, g.schemas.find? name = some s → (s.inline = false ↔ name ∈ d.names)
  has : ∀ name ∈ d.names, ¬d.IsAlias name → g.Has name
  alias_iff : ∀ name target, g.aliases.find? name = some target ↔
    d.IsAlias name ∧ ReflTransGen d.AliasOf name target ∧ d.Canonical target
  noted : ∀ name, d.IsAlias name → ∃ target, g.aliases.find? name = some target

theorem Document.resolve_accounts {d : Document} {g : Graph} (h : d.resolve d.names = .ok g) :
    g.AccountsFor d := by
  obtain ⟨renames, r, ha, hr, hn, rfl⟩ := resolve_eq_ok h
  have hall : ∀ name ∈ d.names, name ∈ d.names := fun _ hm => hm
  refine ⟨fun _ _ hf => hr.inline_iff ha hn hf, ?_, fun _ _ => hr.find?_aliases_iff_reaches hall,
    fun _ => hr.exists_alias hall⟩
  intro name hm halias
  exact hr.has_of_canonical hn hall ((canonical_iff_not_isAlias hm).2 halias)

end

namespace TypeModel

variable {m : TypeModel} {name : String}

/-- The keys of the descriptors that are not inline. -/
def componentKeys (m : TypeModel) : List String :=
  (m.schemas.toList.filter fun e => !e.2.inline).map Prod.fst

theorem mem_componentKeys :
    name ∈ m.componentKeys ↔ ∃ s, m.schemas.find? name = some s ∧ s.inline = false := by
  unfold componentKeys
  simp only [List.mem_map, List.mem_filter, Prod.exists, exists_and_right, exists_eq_right,
    NameMap.mem_toList_iff, Bool.not_eq_true']

theorem nodup_componentKeys (m : TypeModel) : m.componentKeys.Nodup :=
  m.schemas.keys_nodup.sublist (List.filter_sublist.map Prod.fst)

theorem length_componentKeys (m : TypeModel) :
    m.componentKeys.length + m.schemas.values.countP SchemaDescriptor.inline =
      m.schemas.values.length := by
  have hlength : m.componentKeys.length =
      m.schemas.values.countP fun s => decide ¬s.inline = true := by
    rw [componentKeys, List.length_map, ← List.countP_eq_length_filter, NameMap.values,
      List.countP_map]
    congr 1
    funext e
    cases h : e.2.inline <;> simp [h]
  rw [hlength, Nat.add_comm]
  exact (List.length_eq_countP_add_countP SchemaDescriptor.inline).symm

/-- Each component is met once in a model: it has a descriptor that is not inline, or it is an
alias, which leads to the descriptor at the end of its chain. -/
structure AccountsFor (m : TypeModel) (d : Document) : Prop where
  components : ∀ name, name ∈ m.componentKeys ↔ name ∈ d.names ∧ ¬d.IsAlias name
  aliases : ∀ name, name ∈ m.aliases.keys ↔ d.IsAlias name
  apart : ∀ name ∈ m.aliases.keys, name ∉ m.schemas.keys
  inline : ∀ name s, m.schemas.find? name = some s → name ∉ d.names → s.inline
  leads : ∀ name target, m.aliases.find? name = some target →
    ReflTransGen d.AliasOf name target ∧ d.Canonical target ∧ target ∈ m.componentKeys ∧
      ∃ s, m.schemas.find? target = some s ∧ m.get? name = some s
  once : (m.componentKeys ++ m.aliases.keys).Perm d.names

end TypeModel

section

variable [Libraries]

namespace Models

variable {c : Classifier} {b : Built} (hm : Models c b)

include hm

/-- A descriptor is inline if its schema is. -/
theorem exists_inline_iff {name : String} {inline : Bool} :
    (∃ s, b.model.schemas.find? name = some s ∧ s.inline = inline) ↔
      ∃ r, c.graph.schemas.find? name = some r ∧ r.inline = inline := by
  constructor
  · rintro ⟨s, hs, rfl⟩
    obtain ⟨r, hr, hd⟩ := (hm.builds.find?_model hm.intact).1 hs
    obtain ⟨properties, -, rfl⟩ := Classifier.descriptor_eq_ok hd
    exact ⟨r, hr, rfl⟩
  · rintro ⟨r, hr, rfl⟩
    obtain ⟨s, hs, hd⟩ := hm.builds.has_model hm.intact hr
    obtain ⟨properties, -, rfl⟩ := Classifier.descriptor_eq_ok hd
    exact ⟨_, hs, rfl⟩

theorem find?_of_alias {name target : String} (ht : b.model.aliases.find? name = some target) :
    b.model.schemas.find? name = none := by
  cases hs : b.model.schemas.find? name with
  | none => rfl
  | some s =>
    obtain ⟨r, hr, -⟩ := (hm.builds.find?_model hm.intact).1 hs
    rw [hm.builds.aliases, hm.intact.unaliased name ⟨r, hr⟩] at ht
    cases ht

variable {d : Document} (hg : c.graph.AccountsFor d) {name : String}

include hg

theorem mem_aliases_iff : name ∈ b.model.aliases.keys ↔ d.IsAlias name := by
  rw [NameMap.mem_keys_iff, hm.builds.aliases]
  constructor
  · rintro ⟨target, ht⟩
    exact ((hg.alias_iff name target).1 ht).1
  · exact hg.noted name

theorem mem_componentKeys_iff :
    name ∈ b.model.componentKeys ↔ name ∈ d.names ∧ ¬d.IsAlias name := by
  rw [TypeModel.mem_componentKeys]
  constructor
  · rintro ⟨s, hs, hi⟩
    obtain ⟨r, hr, hri⟩ := hm.exists_inline_iff.1 ⟨s, hs, hi⟩
    refine ⟨(hg.inline_iff name r hr).1 hri, fun halias => ?_⟩
    obtain ⟨target, ht⟩ := NameMap.mem_keys_iff.1 ((hm.mem_aliases_iff hg).2 halias)
    rw [hm.find?_of_alias ht] at hs
    cases hs
  · rintro ⟨hmem, halias⟩
    obtain ⟨r, hr⟩ := hg.has name hmem halias
    exact hm.exists_inline_iff.2 ⟨r, hr, (hg.inline_iff name r hr).2 hmem⟩

theorem perm_names : (b.model.componentKeys ++ b.model.aliases.keys).Perm d.names := by
  have hnodup : (b.model.componentKeys ++ b.model.aliases.keys).Nodup := by
    refine List.nodup_append'.2 ⟨b.model.nodup_componentKeys, b.model.aliases.keys_nodup, ?_⟩
    intro name hcomponent halias
    exact ((hm.mem_componentKeys_iff hg).1 hcomponent).2 ((hm.mem_aliases_iff hg).1 halias)
  refine (List.perm_ext_iff_of_nodup hnodup d.distinct).2 fun name => ?_
  rw [List.mem_append, hm.mem_componentKeys_iff hg, hm.mem_aliases_iff hg]
  constructor
  · rintro (⟨hmem, -⟩ | halias)
    · exact hmem
    · exact halias.mem_names
  · intro hmem
    by_cases halias : d.IsAlias name
    · exact .inr halias
    · exact .inl ⟨hmem, halias⟩

theorem accountsFor : b.model.AccountsFor d where
  components _ := hm.mem_componentKeys_iff hg
  aliases _ := hm.mem_aliases_iff hg
  apart name halias hschema := by
    obtain ⟨target, ht⟩ := NameMap.mem_keys_iff.1 halias
    obtain ⟨s, hs⟩ := NameMap.mem_keys_iff.1 hschema
    rw [hm.find?_of_alias ht] at hs
    cases hs
  inline name s hs hmem := by
    obtain ⟨r, hr, hi⟩ := hm.exists_inline_iff.1 ⟨s, hs, rfl⟩
    rw [← hi, ← Bool.not_eq_false, hg.inline_iff name r hr]
    exact hmem
  leads name target ht := by
    have hnone := hm.find?_of_alias ht
    have hfound := ht
    rw [hm.builds.aliases, hg.alias_iff] at hfound
    obtain ⟨-, hreach, hc⟩ := hfound
    have hkey : target ∈ b.model.componentKeys := (hm.mem_componentKeys_iff hg).2
      ⟨hc.mem_names, (Document.canonical_iff_not_isAlias hc.mem_names).1 hc⟩
    obtain ⟨s, hs, -⟩ := TypeModel.mem_componentKeys.1 hkey
    refine ⟨hreach, hc, hkey, s, hs, ?_⟩
    rw [TypeModel.get?, hnone, ht]
    exact hs
  once := hm.perm_names hg

end Models

end

/-- How many descriptors have a kind of this label. -/
def countOf (label : String) (descriptors : List SchemaDescriptor) : Nat :=
  descriptors.countP fun s => s.kind.label == label

theorem countOf_cons (label : String) (d : SchemaDescriptor) (rest : List SchemaDescriptor) :
    countOf label (d :: rest) = countOf label rest + if d.kind.label = label then 1 else 0 := by
  simp only [countOf, List.countP_cons, beq_iff_eq]

namespace Stats

variable {s : Stats} {descriptors : List SchemaDescriptor} {aliases : Nat}

/-- The counters are those of some descriptors, and of a number of aliases. -/
structure Counts (s : Stats) (descriptors : List SchemaDescriptor) (aliases : Nat) : Prop where
  schemasResolved : s.schemasResolved = descriptors.length
  objects : s.objects = descriptors.countP SchemaDescriptor.isObject
  supers : s.supers = descriptors.countP SchemaDescriptor.isSuper
  subs : s.subs = countOf "polymorphic sub" descriptors
  enums : s.enums = countOf "enum" descriptors
  primitives : s.primitives = countOf "primitive" descriptors
  arrays : s.arrays = countOf "array" descriptors
  maps : s.maps = countOf "map" descriptors
  inlineSchemas : s.inlineSchemas = descriptors.countP SchemaDescriptor.inline
  aliases : s.aliases = aliases
  properties : s.properties = (descriptors.map fun d => d.properties.length).sum

theorem counts_empty : empty.Counts [] 0 :=
  ⟨rfl, rfl, rfl, rfl, rfl, rfl, rfl, rfl, rfl, rfl, rfl⟩

/-- What one descriptor adds to the counters. -/
theorem countDescriptor_eq (s : Stats) (d : SchemaDescriptor) : s.countDescriptor d =
    { s with
      schemasResolved := s.schemasResolved + 1
      objects := s.objects + [d].countP SchemaDescriptor.isObject
      supers := s.supers + [d].countP SchemaDescriptor.isSuper
      subs := s.subs + countOf "polymorphic sub" [d]
      enums := s.enums + countOf "enum" [d]
      primitives := s.primitives + countOf "primitive" [d]
      arrays := s.arrays + countOf "array" [d]
      maps := s.maps + countOf "map" [d]
      inlineSchemas := s.inlineSchemas + [d].countP SchemaDescriptor.inline
      properties := s.properties + d.properties.length } := by
  obtain ⟨name, pointer, kind, properties, supertype, subtypes, description, inline⟩ := d
  cases kind <;> simp [countDescriptor, countKind, countOf, SchemaKind.label, List.countP_singleton,
    SchemaDescriptor.isObject, SchemaDescriptor.isSuper, SchemaDescriptor.discriminator?]

theorem Counts.countDescriptor (h : s.Counts descriptors aliases) (d : SchemaDescriptor) :
    (s.countDescriptor d).Counts (descriptors ++ [d]) aliases := by
  rw [countDescriptor_eq]
  constructor <;> simp only [countOf, h.schemasResolved, h.objects, h.supers, h.subs, h.enums,
    h.primitives, h.arrays, h.maps, h.inlineSchemas, h.aliases, h.properties, List.length_append,
    List.length_singleton, List.countP_append, List.map_append, List.map_singleton,
    List.sum_append, List.sum_singleton]

/-- Counting one descriptor after another counts them all. -/
theorem Counts.foldl (h : s.Counts descriptors aliases) (more : List SchemaDescriptor) :
    (more.foldl Stats.countDescriptor s).Counts (descriptors ++ more) aliases := by
  induction more generalizing s descriptors with
  | nil =>
    rw [List.append_nil]
    exact h
  | cons d rest ih =>
    rw [List.foldl_cons, List.append_cons]
    exact ih (h.countDescriptor d)

theorem Counts.countAliases (h : s.Counts descriptors aliases) (more : Nat) :
    (s.countAliases more).Counts descriptors (aliases + more) :=
  { h with aliases := by rw [Stats.countAliases, h.aliases] }

theorem Counts.addWarnings (h : s.Counts descriptors aliases) (warnings : List Warning) :
    (s.addWarnings warnings).Counts descriptors aliases :=
  { h with }

/-- Every schema is of one kind, and what is not inline is a component, as are the aliases. -/
structure Balances (s : Stats) (components : Nat) : Prop where
  kinds : s.objects + s.enums + s.primitives + s.arrays + s.maps = s.schemasResolved
  inline_le : s.inlineSchemas ≤ s.schemasResolved
  components : s.schemasResolved - s.inlineSchemas + s.aliases = components

end Stats

/-- Every descriptor is of one kind. -/
theorem length_eq_counts (descriptors : List SchemaDescriptor) :
    descriptors.countP SchemaDescriptor.isObject + countOf "enum" descriptors +
      countOf "primitive" descriptors + countOf "array" descriptors +
        countOf "map" descriptors = descriptors.length := by
  induction descriptors with
  | nil => rfl
  | cons d rest ih =>
    rw [List.length_cons, List.countP_cons]
    simp only [countOf_cons]
    cases hk : d.kind <;> simp [SchemaDescriptor.isObject, SchemaKind.label, hk] <;> omega

theorem Stats.Counts.balances {s : Stats} {m : TypeModel} {d : Document}
    (h : s.Counts m.schemas.values m.aliases.size) (hm : m.AccountsFor d) :
    s.Balances d.components.length := by
  have hinline := m.length_componentKeys
  have honce : m.componentKeys.length + m.aliases.size = d.components.length := by
    simpa [Document.names, NameMap.keys, NameMap.size] using hm.once.length_eq
  refine ⟨?_, ?_, ?_⟩
  · rw [h.objects, h.enums, h.primitives, h.arrays, h.maps, h.schemasResolved]
    exact length_eq_counts m.schemas.values
  · rw [h.inlineSchemas, h.schemasResolved]
    exact List.countP_le_length
  · rw [h.inlineSchemas, h.schemasResolved, h.aliases]
    omega

/-- The counters of a build are those of its model. -/
theorem Graph.counts_of_build [Libraries] {g : Graph} (hg : g.Intact) {config : Config} {b : Built}
    (h : g.build config = .ok b) : b.stats.Counts b.model.schemas.values b.model.aliases.size := by
  unfold build at h
  obtain ⟨hierarchy, -, h⟩ := bind_eq_ok_iff.1 h
  obtain ⟨descriptors, hd, h⟩ := bind_eq_ok_iff.1 h
  cases h
  -- descriptors are made in the order of their names, so none of them is lost
  have hnames : descriptors.map SchemaDescriptor.name = g.schemas.keys := by
    have hname : ∀ s d, (Classifier.descriptor ⟨g, hierarchy, config⟩ s).outcome = .ok d →
        d.name = s.name := by
      intro s d hs
      obtain ⟨properties, -, rfl⟩ := Classifier.descriptor_eq_ok hs
      rfl
    rw [Traced.outcome_mapM] at hd
    rw [map_eq_of_mapM_eq_ok hname hd, NameMap.values, List.map_map]
    exact List.map_congr_left fun e he => hg.name_eq e.1 e.2 (NameMap.mem_toList_iff.1 he)
  have hsorted : NamesSorted (descriptors.map fun d => (d.name, d)) := by
    have hp := g.schemas.keys_pairwise
    rw [← hnames] at hp
    exact List.pairwise_map.2 (List.pairwise_map.1 hp)
  have hvalues : (NameMap.ofList (descriptors.map fun d => (d.name, d))).values = descriptors := by
    rw [NameMap.values, NameMap.toList_ofList hsorted, List.map_map]
    exact List.map_id descriptors
  rw [hvalues]
  have hcounts := ((Stats.counts_empty.foldl descriptors).countAliases g.aliases.size).addWarnings
    (g.warnings ++ (g.schemas.values.mapM (Classifier.descriptor ⟨g, hierarchy, config⟩)).warnings)
  rw [List.nil_append, Nat.zero_add] at hcounts
  exact hcounts

/-- In a model that is built every component is met once, under its own name or as an alias of one
that is, and the counters are those of a recount. -/
theorem Document.build_accounts [Libraries] {d : Document} {config : Config} {b : Built}
    (h : d.build config = .ok b) : b.model.AccountsFor d ∧
      b.stats.Counts b.model.schemas.values b.model.aliases.size ∧
        b.stats.Balances d.components.length := by
  obtain ⟨g, hierarchy, hresolve, hm⟩ := build_models h
  have haccounts := hm.accountsFor (resolve_accounts hresolve)
  obtain ⟨g', hresolve', hintact, hb⟩ := graph_of_build h
  have hcounts := Graph.counts_of_build hintact hb
  exact ⟨haccounts, hcounts, hcounts.balances haccounts⟩

/-- An object with another one inside, an alias of it that adds null, and an alias of the alias. -/
def aliasOfAlias : Document :=
  ⟨"3.0.3", default,
    [("A", .ref "#/components/schemas/B"),
      ("B", .schema { Schema.empty with
        oneOf := [.ref "#/components/schemas/C", .schema { Schema.empty with
          type := some (.single .null) }] }),
      ("C", .schema { Schema.empty with
        type := some (.single .object)
        properties := [("p", .schema { Schema.empty with
          type := some (.single .object)
          properties := [("q", .schema { Schema.empty with
            type := some (.single .string) })] })] }),
      ("L", .schema { Schema.empty with type := some (.single .array) })], by decide⟩

theorem build_accounts_alias_of_alias : ∃ b, aliasOfAlias.build .standard = .ok b ∧
    b.model.AccountsFor aliasOfAlias ∧
      b.stats.Counts b.model.schemas.values b.model.aliases.size ∧
        b.stats.Balances aliasOfAlias.components.length ∧
    b.model.schemas.keys = ["C", "CP", "L"] ∧
      b.model.aliases.toList = [("A", "C"), ("B", "C")] ∧
        b.stats.schemasResolved = 3 ∧ b.stats.inlineSchemas = 1 ∧ b.stats.aliases = 2 := by
  have hrun : (aliasOfAlias.build .standard).toOption.map (fun b => (b.model.schemas.keys,
      b.model.aliases.toList, b.stats.schemasResolved, b.stats.inlineSchemas, b.stats.aliases)) =
      some (["C", "CP", "L"], [("A", "C"), ("B", "C")], 3, 1, 2) := by cbv
  obtain ⟨b, hb, hrun⟩ := toOption_map_eq_some_iff.1 hrun
  simp only [Prod.mk.injEq] at hrun
  obtain ⟨haccounts, hcounts, hbalances⟩ := Document.build_accounts hb
  exact ⟨b, hb, haccounts, hcounts, hbalances, hrun⟩

end SchemaModel
