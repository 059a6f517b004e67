import SchemaModel.Proofs.Build

/-!
What the discriminator of a supertype consists of (`Graph.Discriminated`): its declaration, the
values that are mapped to schemas, and the keys of its subtypes. Every schema that is a supertype
has one.
-/

namespace SchemaModel

namespace Graph

variable {g : Graph} {h : Hierarchy}

/-- The values of a mapping with the schemas to which they lead. -/
def routes (g : Graph) (owner : String) (mapping : List (String × String)) :
    List (String × String) :=
  mapping.filterMap fun e =>
    (g.mappingTarget owner e.2).toOption.map fun target => (e.1, target)

theorem routes_eq {owner : String} {mapping found : List (String × String)}
    (hm : (mapping.mapM fun e =>
      (g.mappingTarget owner e.2).map fun target => (e.1, target)) = .ok found) :
    g.routes owner mapping = found := by
  induction mapping generalizing found with
  | nil =>
    rw [List.mapM_nil] at hm
    cases hm
    rfl
  | cons e rest ih =>
    rw [List.mapM_cons] at hm
    obtain ⟨route, he, hm⟩ := bind_eq_ok_iff.1 hm
    obtain ⟨others, hrest, hm⟩ := bind_eq_ok_iff.1 hm
    cases hm
    cases ht : g.mappingTarget owner e.2 with
    | error error =>
      rw [ht] at he
      cases he
    | ok target =>
      rw [ht] at he
      cases he
      have hcons : g.routes owner (e :: rest) = (e.1, target) :: g.routes owner rest := by
        rw [routes, List.filterMap_cons, ht]
        rfl
      rw [hcons, ih hrest]

/-- The discrimination of a supertype of the graph. -/
structure Discriminated (g : Graph) (h : Hierarchy) (name : String) (d : Discrimination) :
    Prop where
  object : ∃ o x, g.object? name = some o ∧ o.discriminator = some x ∧
    d.property = x.propertyName ∧ d.mapping = g.routes name x.mapping
  declared : g.property? name d.property = if d.declaredOnSuper then some d.declaration else none
  key : d.declaration.key = d.property
  lent : d.declaredOnSuper = false → ∃ child, h.parent? child = some name ∧
    g.property? child d.property = some d.declaration
  enumType : d.descriptor.enumType = (g.enumOf? d.declaration.type).map Prod.fst
  members : d.members = d.descriptor.enumType.bind g.enum?
  keys : ∀ child keys, d.descriptor.subtypeKeys.find? child = some keys ↔
    h.parent? child = some name ∧ keys = d.keysFor child

theorem key_of_property? {schema key : String} {p : ResolvedProperty}
    (hp : g.property? schema key = some p) : p.key = key := by
  obtain ⟨o, -, hp⟩ := Option.bind_eq_some_iff.1 hp
  have hk := List.find?_some hp
  exact beq_iff_eq.1 hk

variable {o : ObjectShape} {children : NameSet} {key : String} {p : ResolvedProperty}
  {onSuper : Bool}

/-- A supertype has the declaration of its discriminator, or has none of that key. -/
theorem Declares.property?_eq (hd : g.Declares o children key p onSuper) :
    o.property? key = if onSuper then some p else none := by
  cases hd with
  | onSuper found => exact found
  | onChildren none mem found all => exact none

theorem Declares.key_eq (hd : g.Declares o children key p onSuper) : p.key = key := by
  cases hd with
  | onSuper found =>
    have hk := List.find?_some found
    exact beq_iff_eq.1 hk
  | onChildren none mem found all => exact key_of_property? found

theorem Declares.lent (hd : g.Declares o children key p false) :
    ∃ child ∈ children.keys, g.property? child key = some p := by
  cases hd with
  | onChildren none mem found all => exact ⟨_, mem, found⟩

theorem Intact.discriminated (hg : g.Intact) (hh : g.hierarchy = .ok h) {name : String}
    {d : Discrimination} (hd : h.discrimination? name = some d) : g.Discriminated h name d := by
  obtain ⟨o, x, hm, hdisc⟩ := discriminate_of_discrimination? hh hd
  obtain ⟨mapping, heq, hmapping, hdeclares⟩ := discriminate_eq_ok hdisc
  obtain ⟨hobject, hx⟩ := object?_of_mem_supers hg hm
  have hproperty : g.property? name = o.property? := by
    funext key
    rw [property?, hobject, Option.bind_some]
  have hname : d.property = x.propertyName := by
    rw [Discrimination.property, heq]
  obtain ⟨henum, hmembers⟩ := enum_of_discrimination? hh hd
  have hroutes : d.mapping = mapping := by
    conv_lhs => rw [heq]
  have hkeys : d.descriptor.subtypeKeys =
      (h.childrenOf name).map fun child _ => d.keysFor child := by
    conv_lhs => rw [heq]
    simp only [Discrimination.keysFor, hroutes]
  refine ⟨⟨o, x, hobject, hx, hname, ?_⟩, ?_, ?_, ?_, henum, ?_, ?_⟩
  · rw [routes_eq hmapping, hroutes]
  · rw [hproperty, hname]
    exact hdeclares.property?_eq
  · rw [hname]
    exact hdeclares.key_eq
  · intro hlent
    rw [hlent] at hdeclares
    obtain ⟨child, hchild, hfound⟩ := hdeclares.lent
    exact ⟨child, (mem_childrenOf hh).1 hchild, hname ▸ hfound⟩
  · rw [hmembers, henum]
    cases hfound : g.enumOf? d.declaration.type with
    | none => rfl
    | some found =>
      obtain ⟨other, e⟩ := found
      have hother : d.descriptor.enumType = some other := by
        rw [henum, hfound, Option.map_some]
      have he := (enumOf?_eq_some hfound).2
      rw [hg.canonical_eq (hg.has_enumType hh hd hother).2] at he
      exact he.symm
  · intro child keys
    rw [hkeys, NameMap.find?_map, ← mem_childrenOf hh, NameMap.mem_keys_iff,
      Option.map_eq_some_iff]
    constructor
    · rintro ⟨value, hv, rfl⟩
      exact ⟨⟨value, hv⟩, rfl⟩
    · rintro ⟨⟨value, hv⟩, rfl⟩
      exact ⟨value, hv, rfl⟩

end Graph

end SchemaModel
