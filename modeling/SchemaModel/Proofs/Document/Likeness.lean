import SchemaModel.Proofs.Document.Order

/-!
What reading depends on. Values that differ only in members that are no keywords, or in members
beside a reference, are read alike (`Node.read?_eq_of_alike`).
-/

namespace SchemaModel

open Json

mutual

/-- The values differ at most in members that are no keywords, and in those beside a reference. -/
inductive Alike : Json → Json → Prop where
  | same (v : Json) : Alike v v
  | ref {fields others : List (String × Json)} {path : String}
      (ref : fields.lookup "$ref" = some (.str path))
      (other : others.lookup "$ref" = some (.str path)) : Alike (.obj fields) (.obj others)
  | schema {fields others : List (String × Json)}
      (ref : ∀ path, fields.lookup "$ref" ≠ some (.str path))
      (other : ∀ path, others.lookup "$ref" ≠ some (.str path))
      (keywords : ∀ e ∈ Schema.grammar, AlikeAt e.2 (fields.lookup e.1) (others.lookup e.1)) :
      Alike (.obj fields) (.obj others)
  | list {items others : List Json} (length : items.length = others.length)
      (keywords : ∀ e ∈ Schema.grammar, AlikeAt e.2 ((Schema.keywords.zip items).lookup e.1)
        ((Schema.keywords.zip others).lookup e.1)) : Alike (.arr items) (.arr others)

/-- The keyword has the same value, or nodes that are alike. -/
inductive AlikeAt : Kind → Option Json → Option Json → Prop where
  | same (kind : Kind) (v : Option Json) : AlikeAt kind v v
  | node {v w : Json} (nodes : Alike v w) : AlikeAt .node (some v) (some w)
  | additional {v w : Json} (nodes : Alike v w) : AlikeAt .additional (some v) (some w)
  | nodes {items others : List Json} (nodes : List.Forall₂ Alike items others) :
      AlikeAt .nodes (some (.arr items)) (some (.arr others))
  | namedNodes {fields others : List (String × Json)}
      (names : fields.map Prod.fst = others.map Prod.fst)
      (nodes : List.Forall₂ Alike (fields.map Prod.snd) (others.map Prod.snd)) :
      AlikeAt .namedNodes (some (.obj fields)) (some (.obj others))

end

theorem mapM_congr {α β : Type} {f : α → Option β} {l r : List α}
    (h : List.Forall₂ (fun a b => f a = f b) l r) : l.mapM f = r.mapM f := by
  induction h with
  | nil => rfl
  | cons hab _ ih => rw [List.mapM_cons, List.mapM_cons, hab, ih]

/-- Keywords without nodes have the same value. -/
theorem AlikeAt.eq {kind : Kind} {v w : Option Json} (h : AlikeAt kind v w)
    (hplain : kind.holdsNodes = false) : v = w := by
  cases h <;> first | rfl | cases hplain

theorem Alike.isNull_eq {v w : Json} (h : Alike v w) : v.isNull = w.isNull := by
  cases h <;> rfl

section

variable {fields others : List (String × Json)} {key : String}

theorem Json.optional_eq {α : Type} (read? : Json → Option α) : optional fields key read? =
    match fields.lookup key with
    | none => some none
    | some v => if v.isNull then some none else (read? v).map some := by
  unfold Json.optional
  split <;> rename_i h <;> rw [h]
  · rfl
  · rename_i hnull
    exact (if_neg (mt isNull_iff.1 hnull)).symm

theorem readList?_congr
    (ih : ∀ v w, sizeOf v < extent fields → Alike v w → Node.read? v = Node.read? w)
    (h : AlikeAt .nodes (fields.lookup key) (others.lookup key)) :
    defaulted fields key [] Node.readList? = defaulted others key [] Node.readList? := by
  generalize hv : fields.lookup key = v at h
  generalize hw : others.lookup key = w at h
  cases h with
  | same => exact defaulted_congr (hv.trans hw.symm)
  | @nodes items items' hnodes =>
    have hsize := sizeOf_lt_of_lookup hv
    have hread : List.Forall₂ (fun v w => Node.read? v = Node.read? w) items items' := by
      refine forall₂_imp_of_mem hnodes fun v hmem w => ih v w ?_
      have hitem := List.sizeOf_lt_of_mem hmem
      simp at hsize
      omega
    simp only [defaulted, hv, hw, Node.readList?, Node.readItems?_eq, mapM_congr hread]

theorem readMap?_congr
    (ih : ∀ v w, sizeOf v < extent fields → Alike v w → Node.read? v = Node.read? w)
    (h : AlikeAt .namedNodes (fields.lookup key) (others.lookup key)) :
    defaulted fields key [] Node.readMap? = defaulted others key [] Node.readMap? := by
  generalize hv : fields.lookup key = v at h
  generalize hw : others.lookup key = w at h
  cases h with
  | same => exact defaulted_congr (hv.trans hw.symm)
  | @namedNodes members members' hnames hnodes =>
    have hsize := sizeOf_lt_of_lookup hv
    have hread : List.Forall₂ (fun v w => Node.read? v = Node.read? w) (members.map Prod.snd)
        (members'.map Prod.snd) := by
      refine forall₂_imp_of_mem hnodes fun v hv w => ih v w ?_
      obtain ⟨e, hmem, rfl⟩ := List.mem_map.1 hv
      have hmember : sizeOf e < sizeOf members := List.sizeOf_lt_of_mem hmem
      obtain ⟨name, value⟩ := e
      simp at hsize hmember ⊢
      omega
    simp only [defaulted, hv, hw, Node.readMap?, Node.readFields?_eq, mapM_congr hread, hnames]

theorem optional_congr_of_alike {α : Type} {read? : Json → Option α} {v w : Json}
    (hv : fields.lookup key = some v) (hw : others.lookup key = some w) (h : Alike v w)
    (hread : read? v = read? w) :
    Json.optional fields key read? = Json.optional others key read? := by
  rw [optional_eq, optional_eq, hv, hw]
  simp only [h.isNull_eq, hread]

theorem Additional.read?_congr {v w : Json} (h : Alike v w) (hread : Node.read? v = Node.read? w) :
    Additional.read? v = Additional.read? w := by
  cases h <;> simp [Additional.read?, hread]

/-- Schemas are read alike if the nodes inside are. -/
theorem Schema.read?_congr
    (ih : ∀ v w, sizeOf v < extent fields → Alike v w → Node.read? v = Node.read? w)
    (h : ∀ e ∈ grammar, AlikeAt e.2 (fields.lookup e.1) (others.lookup e.1)) :
    read? fields = read? others := by
  simp only [grammar, List.forall_mem_cons] at h
  obtain ⟨htype, hformat, htitle, hdescription, hproperties, hrequired, hallOf, honeOf, hanyOf,
    hdiscriminator, hadditional, hitems, hnullable, hdefault, henum, hpattern, hminLength,
    hmaxLength, hminimum, hmaximum, hexclusiveMinimum, hexclusiveMaximum, hminItems, hmaxItems,
    huniqueItems, -⟩ := h
  have hadditional' : Json.optional fields "additionalProperties" Additional.read? =
      Json.optional others "additionalProperties" Additional.read? := by
    generalize hv : fields.lookup "additionalProperties" = v at hadditional
    generalize hw : others.lookup "additionalProperties" = w at hadditional
    cases hadditional with
    | same => exact optional_congr (hv.trans hw.symm)
    | additional halike =>
      exact optional_congr_of_alike hv hw halike
        (Additional.read?_congr halike (ih _ _ (sizeOf_lt_of_lookup hv) halike))
  have hitems' : Json.optional fields "items" Node.read? =
      Json.optional others "items" Node.read? := by
    generalize hv : fields.lookup "items" = v at hitems
    generalize hw : others.lookup "items" = w at hitems
    cases hitems with
    | same => exact optional_congr (hv.trans hw.symm)
    | node halike =>
      exact optional_congr_of_alike hv hw halike (ih _ _ (sizeOf_lt_of_lookup hv) halike)
  rw [read?, read?]
  simp only [optionalWithin_eq, defaultedWithin_eq, optional_congr (htype.eq rfl),
    optional_congr (hformat.eq rfl), optional_congr (htitle.eq rfl),
    optional_congr (hdescription.eq rfl), readMap?_congr ih hproperties,
    defaulted_congr (hrequired.eq rfl), readList?_congr ih hallOf, readList?_congr ih honeOf,
    readList?_congr ih hanyOf, optional_congr (hdiscriminator.eq rfl), hadditional', hitems',
    optional_congr (hnullable.eq rfl), optional_congr (hdefault.eq rfl),
    defaulted_congr (henum.eq rfl), optional_congr (hpattern.eq rfl),
    optional_congr (hminLength.eq rfl), optional_congr (hmaxLength.eq rfl),
    optional_congr (hminimum.eq rfl), optional_congr (hmaximum.eq rfl),
    optional_congr (hexclusiveMinimum.eq rfl), optional_congr (hexclusiveMaximum.eq rfl),
    optional_congr (hminItems.eq rfl), optional_congr (hmaxItems.eq rfl),
    optional_congr (huniqueItems.eq rfl)]

end

/-- Values that are alike are read as the same node, or not at all. -/
theorem Node.read?_eq_of_alike {v w : Json} (h : Alike v w) : read? v = read? w := by
  have ih : ∀ u t : Json, sizeOf u < sizeOf v → Alike u t → read? u = read? t :=
    fun u t _ halike => read?_eq_of_alike halike
  cases h with
  | same => rfl
  | ref hfields hothers => rw [read?, read?, hfields, hothers]
  | @schema fields others hfields hothers hkeywords =>
    have hextent := extent_le_sizeOf fields
    have hschema := Schema.read?_congr (fun u t hu => ih u t (by simp; omega)) hkeywords
    rw [read?, read?, hschema]
    split
    · rename_i path hpath
      exact absurd hpath (hfields path)
    · rfl
  | @list items others hl hkeywords =>
    have hextent := extent_zip_le_sizeOf Schema.keywords items
    have hschema := Schema.read?_congr (fun u t hu => ih u t (by simp; omega)) hkeywords
    rw [read?, read?, hl, hschema]
termination_by sizeOf v

end SchemaModel
