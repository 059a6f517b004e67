import SchemaModel.Proofs.Resolve.Visit

/-!
What stands inside a schema does not depend on names. Scopes of one document differ in the names
they give, and so in the types they find; but where two of them find the outline of a schema, it is
that of the same component, or the same schemas stand inside it at the same positions
(`outline_alike`). So they visit the same positions (`Visits.twin`).
-/

namespace SchemaModel

namespace Document

/-- The context of a reference shows in errors only. -/
theorem followFrom_context {d : Document} {context other : String} {chain : List String}
    {current target : String} (h : d.followFrom context chain current = .ok target) :
    d.followFrom other chain current = .ok target := by
  fun_induction followFrom d context chain current with
  | case1 chain current hf => cases h
  | case2 chain current node hf ha =>
    rw [followFrom_eq, hf]
    simp only [ha]
    exact h
  | case3 => cases h
  | case4 => cases h
  | case5 chain current node hf path ha next hn hc ih =>
    rw [followFrom_eq, hf]
    simp only [ha, hn, if_neg hc]
    exact ih h

theorem resolveRef_context {d : Document} {context other path target : String}
    (h : d.resolveRef context path = .ok target) : d.resolveRef other path = .ok target := by
  unfold resolveRef at h ⊢
  cases hc : Reference.component? path with
  | none =>
    rw [hc] at h
    cases h
  | some name =>
    simp only [hc] at h ⊢
    exact followFrom_context h

theorem resolveRef_eq {d : Document} {context other path a b : String}
    (ha : d.resolveRef context path = .ok a) (hb : d.resolveRef other path = .ok b) : a = b := by
  rw [resolveRef_context ha, Except.ok.injEq] at hb
  exact hb

end Document

/-- Where an inline schema stands and what it is, whatever its name. -/
def Inline.spot (i : Inline) : Pointer × Schema := (i.pointer, i.schema)

def ResolvedProperty.spots (p : ResolvedProperty) : String × List (Pointer × Schema) :=
  (p.key, p.inlines.map Inline.spot)

def AdditionalType.spots (a : AdditionalType) : List (Pointer × Schema) :=
  a.inlines.map Inline.spot

namespace ObjectShape

/-- The same schemas stand inside two objects, under the same keys, and both have the same
discriminator. -/
structure Alike (o o' : ObjectShape) : Prop where
  properties : o.properties.map ResolvedProperty.spots = o'.properties.map ResolvedProperty.spots
  additional : o.additional.map AdditionalType.spots = o'.additional.map AdditionalType.spots
  discriminator : o.discriminator = o'.discriminator

variable {o o' : ObjectShape}

theorem Alike.refl (o : ObjectShape) : o.Alike o := ⟨rfl, rfl, rfl⟩

theorem map_spots_put {p p' : ResolvedProperty} {l l' : List ResolvedProperty}
    (hp : p.spots = p'.spots) (hl : l.map ResolvedProperty.spots = l'.map ResolvedProperty.spots) :
    (put p l).map ResolvedProperty.spots = (put p' l').map ResolvedProperty.spots := by
  induction l generalizing l' with
  | nil =>
    obtain rfl : l' = [] := List.map_eq_nil_iff.1 hl.symm
    simp [put, hp]
  | cons q rest ih =>
    obtain ⟨q', rest', rfl, hq, hrest⟩ := List.map_eq_cons_iff.1 hl.symm
    have hkey : q.key = p.key ↔ q'.key = p'.key := by
      rw [show q'.key = q.key from congrArg Prod.fst hq,
        show p.key = p'.key from congrArg Prod.fst hp]
    unfold put
    by_cases hk : q.key = p.key
    · rw [if_pos hk, if_pos (hkey.1 hk), List.map_cons, List.map_cons, hp, hrest]
    · rw [if_neg hk, if_neg fun h => hk (hkey.2 h), List.map_cons, List.map_cons, hq,
        ih hrest.symm]

theorem map_spots_foldl_put {properties properties' l l' : List ResolvedProperty}
    (hp : properties.map ResolvedProperty.spots = properties'.map ResolvedProperty.spots)
    (hl : l.map ResolvedProperty.spots = l'.map ResolvedProperty.spots) :
    (properties.foldl (fun l p => put p l) l).map ResolvedProperty.spots =
      (properties'.foldl (fun l p => put p l) l').map ResolvedProperty.spots := by
  induction properties generalizing properties' l l' with
  | nil =>
    obtain rfl : properties' = [] := List.map_eq_nil_iff.1 hp.symm
    exact hl
  | cons p rest ih =>
    obtain ⟨p', rest', rfl, hfirst, hrest⟩ := List.map_eq_cons_iff.1 hp.symm
    rw [List.foldl_cons, List.foldl_cons]
    apply ih hrest.symm
    exact map_spots_put hfirst.symm hl

theorem Alike.merge {branch branch' a a' : ObjectShape} {name name' : String} {inlineBranch : Bool}
    (h : o.Alike o') (hb : branch.Alike branch')
    (ha : o.merge name branch inlineBranch = .ok a)
    (ha' : o'.merge name' branch' inlineBranch = .ok a') : a.Alike a' := by
  rw [merge_eq_ok ha, merge_eq_ok ha']
  refine ⟨map_spots_foldl_put hb.properties h.properties, ?_,
    by simp only [h.discriminator, hb.discriminator]⟩
  have hadditional := hb.additional
  cases hx : branch.additional with
  | none =>
    cases hy : branch'.additional with
    | none => exact h.additional
    | some y => simp [hx, hy] at hadditional
  | some x =>
    cases hy : branch'.additional with
    | none => simp [hx, hy] at hadditional
    | some y =>
      rw [hx, hy] at hadditional
      exact hadditional

theorem Alike.inlines (h : o.Alike o') :
    o.inlines.map Inline.spot = o'.inlines.map Inline.spot := by
  have hspots : ∀ o : ObjectShape, o.inlines.map Inline.spot =
      (o.properties.map ResolvedProperty.spots).flatMap Prod.snd ++
        ((o.additional.map AdditionalType.spots).getD []) := by
    intro o
    rw [ObjectShape.inlines, List.map_append, List.map_flatMap, List.flatMap_map]
    cases o.additional <;> rfl
  rw [hspots, hspots, h.properties, h.additional]

end ObjectShape

variable [Libraries]

namespace Scope

variable {scope scope' : Scope}

omit [Libraries] in
theorem typeNode_spots_eq {path path' : List String} {context context' base base' : String}
    {node : Node} {pointer : Pointer} {found found' : TypeRef × List Inline}
    (h : (scope.typeNode path context base node pointer).outcome = .ok found)
    (h' : (scope'.typeNode path' context' base' node pointer).outcome = .ok found') :
    found.2.map Inline.spot = found'.2.map Inline.spot := by
  replace h := typed_of_typeNode h
  generalize found.1 = type, found.2 = inlines at h
  induction h generalizing base' found' with
  | reference =>
    simp only [typeNode_ref, Traced.outcome_bind_eq_ok_iff, Traced.outcome_pure] at h'
    obtain ⟨name', -, type', -, h'⟩ := h'
    cases h'
    rfl
  | wrapper hw =>
    simp only [typeNode_schema, hw, Traced.outcome_bind_eq_ok_iff, Traced.outcome_pure] at h'
    obtain ⟨name', -, type', -, h'⟩ := h'
    cases h'
    rfl
  | nullable hw hc _ ih =>
    simp only [typeNode_schema, hw, hc] at h'
    exact ih h'
  | array hw hc _ ih | map hw hc _ ih =>
    simp only [typeNode_schema, hw, hc, Traced.outcome_bind_eq_ok_iff, Traced.outcome_pure] at h'
    obtain ⟨inner', hi', h'⟩ := h'
    have hinner := ih hi'
    cases h'
    exact hinner
  | union hw hc =>
    simp only [typeNode_schema, hw, hc, Traced.outcome_bind_eq_ok_iff, Traced.outcome_pure] at h'
    obtain ⟨-, -, h'⟩ := h'
    cases h'
    rfl
  | enum hw hc | object hw hc | anyArray hw hc | anyMap hw hc | primitive hw hc =>
    simp only [typeNode_schema, hw, hc] at h'
    cases h'
    rfl

theorem resolveProperty_spots_eq {owner owner' key : String} {pointer : Pointer} {node : Node}
    {p p' : ResolvedProperty} (h : (scope.resolveProperty owner pointer key node).outcome = .ok p)
    (h' : (scope'.resolveProperty owner' pointer key node).outcome = .ok p') :
    p.spots = p'.spots := by
  obtain ⟨effective, hk, ht, -⟩ := resolveProperty_eq_ok h
  obtain ⟨effective', hk', ht', -⟩ := resolveProperty_eq_ok h'
  rw [ResolvedProperty.spots, ResolvedProperty.spots, hk, hk', typeNode_spots_eq ht ht']

omit [Libraries] in
theorem additionalType_spots_eq {name name' : String} {pointer : Pointer} {additional : Additional}
    {a a' : Option AdditionalType}
    (h : (scope.additionalType name pointer additional).outcome = .ok a)
    (h' : (scope'.additionalType name' pointer additional).outcome = .ok a') :
    a.map AdditionalType.spots = a'.map AdditionalType.spots := by
  cases additional with
  | flag allowed =>
    cases allowed with
    | false =>
      cases h
      cases h'
      rfl
    | true =>
      cases h
      cases h'
      rfl
  | values node =>
    unfold additionalType at h h'
    simp only [Traced.outcome_bind_eq_ok_iff, Traced.outcome_pure] at h h'
    obtain ⟨found, ht, h⟩ := h
    obtain ⟨found', ht', h'⟩ := h'
    have hspots := typeNode_spots_eq ht ht'
    cases h
    cases h'
    exact congrArg some hspots

theorem declareOwn_alike {name name' : String} {pointer : Pointer}
    {declarations : List (String × Node)} {o o' a a' : ObjectShape} (ho : o.Alike o')
    (h : (scope.declareOwn name pointer o declarations).outcome = .ok a)
    (h' : (scope'.declareOwn name' pointer o' declarations).outcome = .ok a') : a.Alike a' := by
  induction declarations generalizing o o' with
  | nil =>
    cases h
    cases h'
    exact ho
  | cons e rest ih =>
    obtain ⟨key, node⟩ := e
    unfold declareOwn at h h'
    simp only [Traced.outcome_bind_eq_ok_iff, Traced.outcome_lift] at h h'
    obtain ⟨p, hp, o₁, h₁, h⟩ := h
    obtain ⟨p', hp', o₁', h₁', h'⟩ := h'
    refine ih ?_ h h'
    rw [ObjectShape.declare_eq_ok h₁, ObjectShape.declare_eq_ok h₁']
    exact ⟨ObjectShape.map_spots_put (resolveProperty_spots_eq hp hp') ho.properties, ho.additional,
      ho.discriminator⟩

theorem mergeOwn_alike {name name' : String} {pointer : Pointer} {s : Schema}
    {o o' a a' : ObjectShape} (ho : o.Alike o')
    (h : (scope.mergeOwn name pointer s o).outcome = .ok a)
    (h' : (scope'.mergeOwn name' pointer s o').outcome = .ok a') : a.Alike a' := by
  obtain ⟨o₁, x, h₁, hx, rfl⟩ := mergeOwn_eq_ok h
  obtain ⟨o₁', x', h₁', hx', rfl⟩ := mergeOwn_eq_ok h'
  have halike := declareOwn_alike ho h₁ h₁'
  refine ⟨halike.properties, ?_, by simp only [halike.discriminator]⟩
  -- the type of undeclared properties is the schema's own, or else that of the branches
  rcases hx with ⟨hs, rfl⟩ | ⟨own, hs, hown⟩
  · rcases hx' with ⟨-, rfl⟩ | ⟨own', hs', -⟩
    · exact halike.additional
    · rw [hs] at hs'
      cases hs'
  · rcases hx' with ⟨hs', -⟩ | ⟨own', hs', hown'⟩
    · rw [hs] at hs'
      cases hs'
    · rw [hs, Option.some.injEq] at hs'
      subst hs'
      exact additionalType_spots_eq hown hown'

/-- Merging in two scopes. -/
theorem merging_alike (hd : scope'.document = scope.document) :
    (∀ path name pointer s o, (scope.mergeSchema path name pointer s).outcome = .ok o →
      ∀ path' name' o', (scope'.mergeSchema path' name' pointer s).outcome = .ok o' →
        o.Alike o') ∧
    (∀ path name pointer index branches o a,
      (scope.mergeBranches path name pointer index branches o).outcome = .ok a →
      ∀ path' name' o' a', o.Alike o' →
        (scope'.mergeBranches path' name' pointer index branches o').outcome = .ok a' →
          a.Alike a') ∧
    ∀ path name o, (scope.mergeComponent path name).outcome = .ok o →
      ∀ path' o', (scope'.mergeComponent path' name).outcome = .ok o' → o.Alike o' := by
  apply merging_induction
  case own =>
    intro path name pointer s merged o hmerged hown ih path' name' o' h'
    rw [mergeSchema, Traced.outcome_bind_eq_ok_iff] at h'
    obtain ⟨merged', hmerged', hown'⟩ := h'
    exact mergeOwn_alike (ih path' name' .empty merged' (.refl _) hmerged') hown hown'
  case nil =>
    intro path name pointer index o path' name' o' a' ho h'
    rw [mergeBranches] at h'
    cases h'
    exact ho
  case ref =>
    intro path name pointer index target rest o parent inherited merged a hr hi hm ihc ihr path'
      name' o' a' ho h'
    simp only [mergeBranches, Traced.outcome_bind_eq_ok_iff, Traced.outcome_lift] at h'
    obtain ⟨parent', hr', inherited', hi', o₁', hm', h'⟩ := h'
    rw [hd] at hr'
    obtain rfl := Document.resolveRef_eq hr hr'
    have hmerged := ho.merge (ihc path' inherited' hi') hm hm'
    refine ihr path' name' _ a' ?_ h'
    exact ⟨hmerged.properties, hmerged.additional, hmerged.discriminator⟩
  case inline =>
    intro path name pointer index s rest o inherited merged a hm ihs ihr path' name' o' a' ho h'
    simp only [mergeBranches, Traced.outcome_bind_eq_ok_iff, Traced.outcome_lift] at h'
    obtain ⟨inherited', hi', o₁', hm', h'⟩ := h'
    have hmerged := ho.merge (ihs _ name' inherited' hi') hm hm'
    refine ihr path' name' _ a' ?_ h'
    exact ⟨hmerged.properties, hmerged.additional, hmerged.discriminator⟩
  case found =>
    intro path name s o hpath hs ih path' o' h'
    obtain ⟨-, t, ht, h'⟩ := mergeComponent_eq_ok_iff.1 h'
    rw [hd, hs, Option.some.injEq] at ht
    subst ht
    exact ih _ _ o' h'

theorem objectShape_alike (hd : scope'.document = scope.document) {name name' : String}
    {pointer : Pointer} {s : Schema} {o o' : ObjectShape}
    (h : (scope.objectShape name pointer s).outcome = .ok o)
    (h' : (scope'.objectShape name' pointer s).outcome = .ok o') : o.Alike o' := by
  -- the members of a union change nothing of what stands inside
  obtain ⟨a, members, ha, rfl⟩ := objectShape_eq_ok h
  obtain ⟨a', members', ha', rfl⟩ := objectShape_eq_ok h'
  have halike := (merging_alike hd).1 _ _ _ _ a ha _ _ a' ha'
  exact ⟨halike.properties, halike.additional, halike.discriminator⟩

end Scope

/-- Two outlines that name the same component, or with the same schemas inside. -/
inductive Outline.Alike : Outline → Outline → Prop where
  | shape {a b : Shape} {inlines inlines' : List Inline}
      (spots : inlines.map Inline.spot = inlines'.map Inline.spot) :
      Alike (.shape a inlines) (.shape b inlines')
  | sameAs (component : String) : Alike (.sameAs component) (.sameAs component)

namespace Scope

variable {scope scope' : Scope} {order : List String}

theorem outline_alike (hd : scope'.document = scope.document) {name name' : String}
    {pointer : Pointer} {s : Schema} {found found' : Outline}
    (h : (scope.outline name pointer s).outcome = .ok found)
    (h' : (scope'.outline name' pointer s).outcome = .ok found') : found.Alike found' := by
  cases found with
  | sameAs other =>
    refine sameAs_induction (motive := fun pointer s => ∀ found',
      (scope'.outline name' pointer s).outcome = .ok found' → Outline.Alike (.sameAs other) found')
      ?reference ?inside h found' h'
    case reference =>
      intro pointer s keyword index target hc hr found' h'
      simp only [outline_eq, hc, Traced.outcome_bind_eq_ok_iff, Traced.outcome_lift,
        Traced.outcome_pure] at h'
      obtain ⟨component', hr', h'⟩ := h'
      rw [hd] at hr'
      obtain rfl := Document.resolveRef_eq hr hr'
      cases h'
      exact .sameAs other
    case inside =>
      intro pointer s keyword index inner hc ih found' h'
      rw [outline_eq, hc] at h'
      exact ih found' h'
  | shape shape inlines =>
    replace h := outlined_of_outline h
    induction h with
    | inside hc _ ih =>
      rw [outline_eq, hc] at h'
      exact ih h'
    | object hc ho =>
      simp only [outline_eq, hc, Traced.outcome_bind_eq_ok_iff, Traced.outcome_pure] at h'
      obtain ⟨o', ho', h'⟩ := h'
      cases h'
      exact .shape (objectShape_alike hd ho ho').inlines
    | array hc ht | map hc ht =>
      simp only [outline_eq, hc, Traced.outcome_bind_eq_ok_iff, Traced.outcome_pure] at h'
      obtain ⟨inner', ht', h'⟩ := h'
      have hspots := typeNode_spots_eq ht ht'
      cases h'
      exact .shape hspots
    | union hc =>
      simp only [outline_eq, hc, Traced.outcome_bind_eq_ok_iff, Traced.outcome_pure] at h'
      obtain ⟨-, -, h'⟩ := h'
      cases h'
      exact .shape rfl
    | enum hc | anyArray hc | anyMap hc | primitive hc =>
      simp only [outline_eq, hc] at h'
      cases h'
      exact .shape rfl

theorem ShapeWithin.outline {n : Nat} {site : Site} {shape : Shape}
    (h : scope.ShapeWithin n site shape) : ∃ found, (scope.outlineAt site).outcome = .ok found := by
  cases h with
  | own outline => exact ⟨_, outline⟩
  | same outline => exact ⟨_, outline⟩

/-- A scope in which all visited sites have an outline visits all positions that another scope of
the document visits. -/
theorem Visits.twin (hd : scope'.document = scope.document)
    (houtline : ∀ site, scope.Visits order site →
      ∃ found, (scope.outlineAt site).outcome = .ok found)
    {site' : Site} (hv : scope'.Visits order site') :
    ∃ site, scope.Visits order site ∧ site.pointer = site'.pointer ∧
      site.schema = site'.schema := by
  induction hv with
  | component mem follows definition =>
    rw [hd] at follows definition
    exact ⟨_, .component mem follows definition, rfl, rfl⟩
  | @same site' other s visits outline definition ih =>
    obtain ⟨site, hsite, hp, hs⟩ := ih
    obtain ⟨found, hfound⟩ := houtline site hsite
    have halike := outline_alike hd hfound (by rw [hp, hs]; exact outline)
    cases halike
    rw [hd] at definition
    exact ⟨_, .same hsite hfound definition, rfl, rfl⟩
  | @inside site' shape inlines i visits outline mem ih =>
    obtain ⟨site, hsite, hp, hs⟩ := ih
    obtain ⟨found, hfound⟩ := houtline site hsite
    have halike := outline_alike hd hfound (by rw [hp, hs]; exact outline)
    cases halike with
    | shape spots =>
      have hspot := List.mem_map_of_mem (f := Inline.spot) mem
      rw [← spots] at hspot
      obtain ⟨j, hj, he⟩ := List.mem_map.1 hspot
      rw [Inline.spot, Inline.spot, Prod.mk.injEq] at he
      exact ⟨_, .inside hsite hfound hj, he.1, he.2⟩

end Scope

end SchemaModel
