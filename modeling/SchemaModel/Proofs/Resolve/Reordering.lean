import SchemaModel.Resolve.Graph
import SchemaModel.Proofs.NameMap
import SchemaModel.Proofs.Resolve.Alias

/-!
The order in which a document lists its components has no part in what a schema is: with the
components in another order every lookup, type, merged object and outline is the same.
-/

namespace SchemaModel

theorem Naming.fresh_eq_of_perm {a b : List String} (h : a.Perm b) (base : String) :
    Naming.fresh base a = Naming.fresh base b := by
  have hc : ∀ name, a.contains name = b.contains name := by
    intro name
    rw [Bool.eq_iff_iff]
    simpa using h.mem_iff
  simp only [fresh, hc, h.length_eq]

namespace Document

variable {d d' : Document}

theorem find?_eq_of_perm (h : d.components.Perm d'.components) (name : String) :
    d.find? name = d'.find? name :=
  lookup_eq_of_perm d.distinct h name

theorem names_perm (h : d.components.Perm d'.components) : d.names.Perm d'.names :=
  h.map Prod.fst

theorem positions_perm (h : d.components.Perm d'.components) : d.positions.Perm d'.positions :=
  h.flatMap_right _

theorem definition?_eq_of_perm (h : d.components.Perm d'.components) (name : String) :
    d.definition? name = d'.definition? name := by
  rw [definition?, definition?, find?_eq_of_perm h]

theorem definition_eq_of_perm (h : d.components.Perm d'.components) (name : String) :
    d.definition name = d'.definition name := by
  rw [definition, definition, definition?_eq_of_perm h]

theorem followFrom_eq_of_perm (h : d.components.Perm d'.components) (context : String)
    (chain : List String) (current : String) :
    d.followFrom context chain current = d'.followFrom context chain current := by
  fun_induction followFrom d context chain current with
  | case1 chain current hf => rw [followFrom_eq, ← find?_eq_of_perm h, hf]
  | case2 chain current node hf ha =>
    rw [followFrom_eq, ← find?_eq_of_perm h, hf]
    simp only [ha]
  | case3 chain current node hf path ha hc =>
    rw [followFrom_eq, ← find?_eq_of_perm h, hf]
    simp only [ha, hc]
  | case4 chain current node hf path ha next hc hm =>
    rw [followFrom_eq, ← find?_eq_of_perm h, hf]
    simp only [ha, hc, if_pos hm]
  | case5 chain current node hf path ha next hc hm ih =>
    rw [followFrom_eq _ _ chain, ← find?_eq_of_perm h, hf]
    simp only [ha, hc, if_neg hm, ih]

theorem resolveRef_eq_of_perm (h : d.components.Perm d'.components) (context path : String) :
    d.resolveRef context path = d'.resolveRef context path := by
  unfold resolveRef followAlias
  simp only [followFrom_eq_of_perm h]

theorem effective_eq_of_perm (h : d.components.Perm d'.components) (context : String)
    (node : Node) : d.effective context node = d'.effective context node := by
  have href : ∀ target, d.effective context (.ref target) = d'.effective context (.ref target) := by
    intro target
    simp only [effective, resolveRef_eq_of_perm h, definition_eq_of_perm h]
  induction node using effective.induct with
  | case1 target => exact href target
  | case2 s target hs => simp only [effective_schema, hs, href]
  | case3 s hs union hu ih => simp only [effective_schema, hs, hu, ih]
  | case4 s hs hu => simp only [effective_schema, hs, hu]

theorem isNullable_eq_of_perm (h : d.components.Perm d'.components) (context : String)
    (node : Node) : d.isNullable context node = d'.isNullable context node := by
  have hf : d.find? = d'.find? := funext (find?_eq_of_perm h)
  have href : ∀ target, d.isNullableRef context target = d'.isNullableRef context target := by
    intro target
    unfold isNullableRef
    simp only [resolveRef_eq_of_perm h, definition_eq_of_perm h, hf]
  cases node with
  | ref target => exact href target
  | schema s => simp only [isNullable, href]

end Document

namespace Scope

variable {d d' : Document}

theorem inlineName_eq_of_perm (h : d.components.Perm d'.components)
    (renames : List (Pointer × String)) (base : String) (pointer : Pointer) :
    inlineName ⟨d, renames⟩ base pointer = inlineName ⟨d', renames⟩ base pointer := by
  simp only [inlineName, Naming.fresh_eq_of_perm (Document.names_perm h)]

theorem typing_eq_of_perm (h : d.components.Perm d'.components)
    (renames : List (Pointer × String)) :
    (∀ path context base node pointer, typeNode ⟨d, renames⟩ path context base node pointer =
      typeNode ⟨d', renames⟩ path context base node pointer) ∧
    (∀ path name, componentType ⟨d, renames⟩ path name = componentType ⟨d', renames⟩ path name) ∧
    ∀ path name s pointer, namedType ⟨d, renames⟩ path name s pointer =
      namedType ⟨d', renames⟩ path name s pointer := by
  have hr := Document.resolveRef_eq_of_perm h
  have hd := Document.definition?_eq_of_perm h
  have hi := inlineName_eq_of_perm h renames
  apply typeNode.mutual_induct ⟨d, renames⟩
  case case1 =>
    intro path context base pointer target ih
    simp only [typeNode_ref, hr, ih]
  case case2 =>
    intro path context base pointer s target hs ih
    simp only [typeNode_schema, hs, hr, ih]
  case case5 | case8 | case10 =>
    intro path context base pointer s hs inner hc ih
    simp only [typeNode_schema, hs, hc, ih]
  case case3 | case4 | case6 | case7 | case9 =>
    intro path context base pointer s hs hc
    simp only [typeNode_schema, hs, hc, hi]
  case case11 =>
    intro path context base pointer s hs type hc
    simp only [typeNode_schema, hs, hc]
  case case12 =>
    intro path name hm
    simp only [componentType_eq, if_pos hm]
  case case13 =>
    intro path name hm hn
    simp only [componentType_eq, if_neg hm, ← hd, hn]
  case case14 =>
    intro path name hm s hs ih
    simp only [componentType_eq, if_neg hm, ← hd, hs, ih]
  case case18 =>
    intro path name s pointer keyword index inner hc ih
    rw [namedType_eq, hc, namedType_eq _ _ _ s, hc]
    exact ih
  case case19 =>
    intro path name s pointer keyword index target hc ih
    simp only [namedType_eq, hc, hr, ih]
  case case21 | case23 =>
    intro path name s pointer inner hc ih
    simp only [namedType_eq, hc, ih]
  case case15 | case16 | case17 | case20 | case22 =>
    intro path name s pointer hc
    simp only [namedType_eq, hc]
  case case24 =>
    intro path name s pointer type hc
    simp only [namedType_eq, hc]

theorem typeNode_eq_of_perm (h : d.components.Perm d'.components)
    (renames : List (Pointer × String)) (path : List String) (context base : String)
    (node : Node) (pointer : Pointer) :
    typeNode ⟨d, renames⟩ path context base node pointer =
      typeNode ⟨d', renames⟩ path context base node pointer :=
  (typing_eq_of_perm h renames).1 path context base node pointer

variable [Libraries]

theorem resolveProperty_eq_of_perm (h : d.components.Perm d'.components)
    (renames : List (Pointer × String)) (owner : String) (pointer : Pointer) (key : String)
    (node : Node) :
    resolveProperty ⟨d, renames⟩ owner pointer key node =
      resolveProperty ⟨d', renames⟩ owner pointer key node := by
  simp only [resolveProperty, typeNode_eq_of_perm h, Document.effective_eq_of_perm h,
    Document.isNullable_eq_of_perm h]

omit [Libraries] in
theorem additionalType_eq_of_perm (h : d.components.Perm d'.components)
    (renames : List (Pointer × String)) (name : String) (pointer : Pointer) (a : Additional) :
    additionalType ⟨d, renames⟩ name pointer a = additionalType ⟨d', renames⟩ name pointer a := by
  cases a with
  | flag allowed => cases allowed <;> rfl
  | values node => simp only [additionalType, typeNode_eq_of_perm h]

theorem declareOwn_eq_of_perm (h : d.components.Perm d'.components)
    (renames : List (Pointer × String)) (name : String) (pointer : Pointer) (o : ObjectShape)
    (properties : List (String × Node)) :
    declareOwn ⟨d, renames⟩ name pointer o properties =
      declareOwn ⟨d', renames⟩ name pointer o properties := by
  induction properties generalizing o with
  | nil => rfl
  | cons e rest ih =>
    obtain ⟨key, node⟩ := e
    simp only [declareOwn, resolveProperty_eq_of_perm h, ih]

theorem mergeOwn_eq_of_perm (h : d.components.Perm d'.components)
    (renames : List (Pointer × String)) (name : String) (pointer : Pointer) (s : Schema)
    (o : ObjectShape) :
    mergeOwn ⟨d, renames⟩ name pointer s o = mergeOwn ⟨d', renames⟩ name pointer s o := by
  simp only [mergeOwn, declareOwn_eq_of_perm h, additionalType_eq_of_perm h]

theorem merging_eq_of_perm (h : d.components.Perm d'.components)
    (renames : List (Pointer × String)) :
    (∀ path name pointer s, mergeSchema ⟨d, renames⟩ path name pointer s =
      mergeSchema ⟨d', renames⟩ path name pointer s) ∧
    (∀ path name pointer index branches o,
      mergeBranches ⟨d, renames⟩ path name pointer index branches o =
        mergeBranches ⟨d', renames⟩ path name pointer index branches o) ∧
    ∀ path name,
      mergeComponent ⟨d, renames⟩ path name = mergeComponent ⟨d', renames⟩ path name := by
  have hr := Document.resolveRef_eq_of_perm h
  have hd := Document.definition?_eq_of_perm h
  apply mergeSchema.mutual_induct ⟨d, renames⟩
  case case1 =>
    intro path name pointer s ih
    simp only [mergeSchema, ih, mergeOwn_eq_of_perm h]
  case case2 =>
    intro path name pointer index o
    simp only [mergeBranches]
  case case3 =>
    intro path name pointer index o target rest ihc ihr
    simp only [mergeBranches, hr, ihc, ihr]
  case case4 =>
    intro path name pointer index o s rest inner ihs ihr
    simp only [mergeBranches, ihr]
    rw [ihs]
  case case5 =>
    intro path name hm
    simp only [mergeComponent_eq, if_pos hm]
  case case6 =>
    intro path name hm hn
    simp only [mergeComponent_eq, if_neg hm, ← hd, hn]
  case case7 =>
    intro path name hm s hs ih
    simp only [mergeComponent_eq, if_neg hm, ← hd, hs, ih]

theorem mergeSchema_eq_of_perm (h : d.components.Perm d'.components)
    (renames : List (Pointer × String)) (path : MergePath) (name : String) (pointer : Pointer)
    (s : Schema) :
    mergeSchema ⟨d, renames⟩ path name pointer s = mergeSchema ⟨d', renames⟩ path name pointer s :=
  (merging_eq_of_perm h renames).1 path name pointer s

omit [Libraries] in
theorem unionMembers_eq_of_perm (h : d.components.Perm d'.components)
    (renames : List (Pointer × String)) (name : String) (index : Nat) (members : List String)
    (nodes : List Node) :
    unionMembers ⟨d, renames⟩ name index members nodes =
      unionMembers ⟨d', renames⟩ name index members nodes := by
  induction nodes generalizing index members with
  | nil => rfl
  | cons node rest ih =>
    cases node with
    | ref target => simp only [unionMembers, Document.resolveRef_eq_of_perm h, ih]
    | schema s => simp only [unionMembers, ih]

theorem objectShape_eq_of_perm (h : d.components.Perm d'.components)
    (renames : List (Pointer × String)) (name : String) (pointer : Pointer) (s : Schema) :
    objectShape ⟨d, renames⟩ name pointer s = objectShape ⟨d', renames⟩ name pointer s := by
  simp only [objectShape, mergeSchema_eq_of_perm h, unionMembers_eq_of_perm h]

theorem outline_eq_of_perm (h : d.components.Perm d'.components)
    (renames : List (Pointer × String)) (name : String) (pointer : Pointer) (s : Schema) :
    outline ⟨d, renames⟩ name pointer s = outline ⟨d', renames⟩ name pointer s := by
  induction pointer, s using outline.induct with
  | case1 pointer s hc => simp only [outline_eq, hc]
  | case2 pointer s keyword index inner hc ih =>
    rw [outline_eq, hc, outline_eq _ _ pointer, hc]
    exact ih
  | case3 pointer s keyword index target hc =>
    simp only [outline_eq, hc, Document.resolveRef_eq_of_perm h]
  | case4 pointer s hc => simp only [outline_eq, hc]
  | case5 pointer s hc => simp only [outline_eq, hc, objectShape_eq_of_perm h]
  | case6 pointer s hc => simp only [outline_eq, hc]
  | case7 pointer s items hc => simp only [outline_eq, hc, typeNode_eq_of_perm h]
  | case8 pointer s hc => simp only [outline_eq, hc]
  | case9 pointer s values hc => simp only [outline_eq, hc, typeNode_eq_of_perm h]
  | case10 pointer s type hc => simp only [outline_eq, hc]

end Scope

end SchemaModel
