import Mathlib.Logic.Relation
import SchemaModel.Proofs.NameMap
import SchemaModel.Proofs.Resolve.Visit

/-!
The parts of an object: its schema and, over and over, the branches of `allOf`. What a merged
object is, its parts tell alone: its properties are declarations of parts, each declaration of a
part is kept with its type, and it requires what parts require (`Scope.merging_collects`). So an
object has the parts of one schema, itself or the one beside `null` (`HasShape.collects`).
-/

namespace SchemaModel

open Relation

/-- The inline branch of a schema, under the name of the schema. -/
def Site.branch (whole : Site) (index : Nat) (t : Schema) : Site :=
  { whole with pointer := whole.pointer.push (.allOf index), schema := t }

namespace Document

variable {d : Document} {whole child : Site} {index : Nat} {node : Node} {rest : List Node}

/-- What the branch at an index is: an inline schema, or the component to which a reference
leads. -/
inductive Opens (d : Document) (whole : Site) (index : Nat) : Node → Site → Prop where
  | inline (t : Schema) : Opens d whole index (.schema t) (whole.branch index t)
  | component {target name : String} {t : Schema}
      (leads : d.resolveRef whole.name target = .ok name)
      (definition : d.definition? name = some t) :
      Opens d whole index (.ref target) (.ofComponent name t)

/-- One of the given branches, which start at an index. -/
def Among (d : Document) (whole : Site) (index : Nat) (branches : List Node) (child : Site) :
    Prop :=
  ∃ offset node, branches[offset]? = some node ∧ d.Opens whole (index + offset) node child

def Branch (d : Document) (whole child : Site) : Prop := d.Among whole 0 whole.schema.allOf child

theorem not_among_nil : ¬d.Among whole index [] child := by
  rintro ⟨offset, node, hn, -⟩
  cases hn

theorem among_cons : d.Among whole index (node :: rest) child ↔
    d.Opens whole index node child ∨ d.Among whole (index + 1) rest child := by
  constructor
  · rintro ⟨offset, other, hn, ho⟩
    cases offset with
    | zero =>
      cases hn
      exact .inl ho
    | succ offset =>
      refine .inr ⟨offset, other, by simpa using hn, ?_⟩
      rwa [Nat.add_assoc, Nat.add_comm 1]
  · rintro (ho | ⟨offset, other, hn, ho⟩)
    · exact ⟨0, node, rfl, ho⟩
    · refine ⟨offset + 1, other, by simpa using hn, ?_⟩
      rwa [Nat.add_assoc, Nat.add_comm 1] at ho

theorem opens_schema {t : Schema} :
    d.Opens whole index (.schema t) child ↔ child = whole.branch index t := by
  constructor
  · rintro ⟨⟩
    rfl
  · rintro rfl
    exact .inline t

theorem opens_ref {target name : String} {t : Schema}
    (hr : d.resolveRef whole.name target = .ok name) (ht : d.definition? name = some t) :
    d.Opens whole index (.ref target) child ↔ child = .ofComponent name t := by
  constructor
  · intro h
    cases h with
    | component leads definition =>
      rw [hr, Except.ok.injEq] at leads
      subst leads
      rw [ht, Option.some.injEq] at definition
      rw [definition]
  · rintro rfl
    exact .component hr ht

/-- What holds of one of the branches holds of the first or of a later one. -/
theorem exists_among_cons {P : Site → Prop} {first : Site}
    (h : ∀ child, d.Opens whole index node child ↔ child = first) :
    (∃ child, d.Among whole index (node :: rest) child ∧ P child) ↔
      P first ∨ ∃ child, d.Among whole (index + 1) rest child ∧ P child := by
  simp only [among_cons, h, or_and_right, exists_or, exists_eq_left]

/-- A part is the schema itself or a part of a branch. -/
theorem exists_part_iff {P : Site → Prop} :
    (∃ part, ReflTransGen d.Branch whole part ∧ P part) ↔
      P whole ∨ ∃ child, d.Branch whole child ∧
        ∃ part, ReflTransGen d.Branch child part ∧ P part := by
  constructor
  · rintro ⟨part, hpart, hp⟩
    rcases hpart.cases_head with rfl | ⟨child, hchild, hpart⟩
    · exact .inl hp
    · exact .inr ⟨child, hchild, part, hpart, hp⟩
  · rintro (hp | ⟨child, hchild, part, hpart, hp⟩)
    · exact ⟨whole, .refl, hp⟩
    · exact ⟨part, .head hchild hpart, hp⟩

/-- A part requires the key. -/
def Requires (d : Document) (whole : Site) (key : String) : Prop :=
  ∃ part, ReflTransGen d.Branch whole part ∧ key ∈ part.schema.required

end Document

section

variable [Libraries]

namespace Scope

/-- The property is one that a schema itself declares. -/
def DeclaredBy (scope : Scope) (part : Site) (p : ResolvedProperty) : Prop :=
  ∃ node, (p.key, node) ∈ part.schema.properties ∧
    (scope.resolveProperty part.name part.pointer p.key node).outcome = .ok p

/-- The property is one that a part declares. -/
def DeclaredIn (scope : Scope) (whole : Site) (p : ResolvedProperty) : Prop :=
  ∃ part, ReflTransGen scope.document.Branch whole part ∧ scope.DeclaredBy part p

theorem DeclaredIn.of_branch {scope : Scope} {whole child : Site} {p : ResolvedProperty}
    (hp : scope.DeclaredIn child p) (hc : scope.document.Branch whole child) :
    scope.DeclaredIn whole p :=
  Document.exists_part_iff.2 (.inr ⟨child, hc, hp⟩)

theorem declaredIn_of_property {scope : Scope} {site : Site} {key : String} {node : Node}
    {p : ResolvedProperty} (hm : (key, node) ∈ site.schema.properties)
    (hp : (scope.resolveProperty site.name site.pointer key node).outcome = .ok p) :
    scope.DeclaredIn site p := by
  obtain ⟨-, rfl, -⟩ := resolveProperty_eq_ok hp
  exact ⟨site, .refl, node, hm, hp⟩

end Scope

end

/-- An object has what is declared, each key with the types of its declarations, and requires what
is required. -/
structure ObjectShape.Collects (o : ObjectShape) (declared : ResolvedProperty → Prop)
    (required : String → Prop) : Prop where
  declares : ∀ p ∈ o.properties, declared p
  keeps : ∀ p, declared p → ∃ q, o.property? p.key = some q ∧ q.type = p.type
  requires : ∀ key, o.required.contains key ↔ required key

namespace ObjectShape.Collects

variable {o branch o' : ObjectShape} {declared declared' : ResolvedProperty → Prop}
  {required required' : String → Prop}

theorem congr (h : o.Collects declared required) (hd : ∀ p, declared p ↔ declared' p)
    (hr : ∀ key, required key ↔ required' key) : o.Collects declared' required' where
  declares p hp := (hd p).1 (h.declares p hp)
  keeps p hp := h.keeps p ((hd p).2 hp)
  requires key := (h.requires key).trans (hr key)

/-- Declarations of one key have one type. -/
theorem type_eq (h : o.Collects declared required) {p q : ResolvedProperty} (hp : declared p)
    (hq : declared q) (hk : p.key = q.key) : p.type = q.type := by
  obtain ⟨a, ha, hap⟩ := h.keeps p hp
  obtain ⟨b, hb, hbq⟩ := h.keeps q hq
  rw [hk, hb, Option.some.injEq] at ha
  subst ha
  rw [← hap, hbq]

theorem empty : ObjectShape.empty.Collects (fun _ => False) fun _ => False where
  declares _ hp := by cases hp
  keeps _ hp := hp.elim
  requires key := by simp [ObjectShape.empty, NameMap.contains]

theorem merge {name : String} {inlineBranch : Bool} (h : o.Collects declared required)
    (hb : branch.Collects declared' required') (hm : o.merge name branch inlineBranch = .ok o') :
    o'.Collects (fun p => declared p ∨ declared' p) fun key => required key ∨ required' key := by
  obtain ⟨hold, hbranch⟩ := merge_within hm
  refine ⟨?_, ?_, ?_⟩
  · intro p hp
    rw [merge_eq_ok hm] at hp
    rcases mem_of_mem_foldl_put hp with hp | hp
    · exact .inr (hb.declares p hp)
    · exact .inl (h.declares p hp)
  · rintro p (hp | hp)
    · obtain ⟨q, hq, hqp⟩ := h.keeps p hp
      obtain ⟨r, hr, hrq⟩ := hold _ q hq
      exact ⟨r, hr, hrq.trans hqp⟩
    · obtain ⟨q, hq, hqp⟩ := hb.keeps p hp
      obtain ⟨r, hr, hrq⟩ := hbranch _ q hq
      exact ⟨r, hr, hrq.trans hqp⟩
  · intro key
    rw [merge_eq_ok hm, ← h.requires, ← hb.requires]
    exact NameSet.contains_union

end ObjectShape.Collects

variable [Libraries]

namespace Scope

variable {scope : Scope}

/-- What a schema itself adds to its branches are its own declarations. -/
theorem declareOwn_collects {part : Site} {o o' : ObjectShape}
    {declared : ResolvedProperty → Prop} {required : String → Prop}
    {declarations : List (String × Node)} (h : o.Collects declared required)
    (hd : (scope.declareOwn part.name part.pointer o declarations).outcome = .ok o') :
    o'.Collects (fun p => declared p ∨ ∃ node, (p.key, node) ∈ declarations ∧
      (scope.resolveProperty part.name part.pointer p.key node).outcome = .ok p) required := by
  induction declarations generalizing o declared with
  | nil =>
    cases hd
    exact h.congr (fun p => by simp) fun key => .rfl
  | cons e rest ih =>
    obtain ⟨key, node⟩ := e
    unfold declareOwn at hd
    simp only [Traced.outcome_bind_eq_ok_iff, Traced.outcome_lift] at hd
    obtain ⟨p, hp, o₁, h₁, hd⟩ := hd
    obtain ⟨-, rfl, -⟩ := resolveProperty_eq_ok hp
    have hone : o₁.Collects (fun q => declared q ∨ q = p) required := by
      obtain ⟨hold, hnew⟩ := ObjectShape.declare_within h₁
      have ho₁ := ObjectShape.declare_eq_ok h₁
      refine ⟨?_, ?_, by rw [ho₁]; exact h.requires⟩
      · intro q hq
        rw [ho₁] at hq
        exact (ObjectShape.mem_of_mem_put hq).symm.imp_left (h.declares q)
      · rintro q (hq | rfl)
        · obtain ⟨r, hr, hrq⟩ := h.keeps q hq
          obtain ⟨r', hr', hrr⟩ := hold _ r hr
          exact ⟨r', hr', hrr.trans hrq⟩
        · exact ⟨q, hnew, rfl⟩
    refine (ih hone hd).congr ?_ fun key => .rfl
    intro q
    constructor
    · rintro ((hq | rfl) | ⟨node', hm, hq⟩)
      · exact .inl hq
      · exact .inr ⟨node, List.mem_cons_self, hp⟩
      · exact .inr ⟨node', List.mem_cons_of_mem _ hm, hq⟩
    · rintro (hq | ⟨node', hm, hq⟩)
      · exact .inl (.inl hq)
      · rcases List.mem_cons.1 hm with he | hm
        · rw [Prod.mk.injEq] at he
          obtain ⟨hk, rfl⟩ := he
          rw [hk, hp, Except.ok.injEq] at hq
          exact .inl (.inr hq.symm)
        · exact .inr ⟨node', hm, hq⟩

theorem mergeOwn_collects {part : Site} {o o' : ObjectShape}
    {declared : ResolvedProperty → Prop} {required : String → Prop}
    (h : o.Collects declared required)
    (hm : (scope.mergeOwn part.name part.pointer part.schema o).outcome = .ok o') :
    o'.Collects (fun p => declared p ∨ scope.DeclaredBy part p)
      fun key => required key ∨ key ∈ part.schema.required := by
  obtain ⟨o₁, additional, h₁, -, rfl⟩ := mergeOwn_eq_ok hm
  have hown := declareOwn_collects h h₁
  refine ⟨hown.declares, hown.keeps, ?_⟩
  intro key
  rw [← hown.requires]
  exact NameSet.contains_addAll

/-- Merging collects what the parts declare and require. The branches that are left add what is
declared and required in them. -/
theorem merging_collects (scope : Scope) :
    (∀ path name pointer s o, (scope.mergeSchema path name pointer s).outcome = .ok o →
      ∀ inline, o.Collects (scope.DeclaredIn ⟨name, pointer, inline, s⟩)
        (scope.document.Requires ⟨name, pointer, inline, s⟩)) ∧
    (∀ path name pointer index branches o o',
      (scope.mergeBranches path name pointer index branches o).outcome = .ok o' →
      ∀ inline s declared required, o.Collects declared required →
        o'.Collects
          (fun p => declared p ∨ ∃ child,
            scope.document.Among ⟨name, pointer, inline, s⟩ index branches child ∧
              scope.DeclaredIn child p)
          fun key => required key ∨ ∃ child,
            scope.document.Among ⟨name, pointer, inline, s⟩ index branches child ∧
              scope.document.Requires child key) ∧
    ∀ path name o, (scope.mergeComponent path name).outcome = .ok o →
      ∀ s, scope.document.definition? name = some s →
        o.Collects (scope.DeclaredIn (.ofComponent name s))
          (scope.document.Requires (.ofComponent name s)) := by
  apply merging_induction
  case own =>
    intro path name pointer s merged o hmerged hown ih inline
    have hbranches := ih inline s _ _ .empty
    have hcollects := @mergeOwn_collects _ scope ⟨name, pointer, inline, s⟩ merged o _ _ hbranches
      hown
    refine hcollects.congr (fun p => ?_) fun key => ?_
    · rw [DeclaredIn, Document.exists_part_iff, false_or, or_comm]
      rfl
    · rw [Document.Requires, Document.exists_part_iff, false_or, or_comm]
      rfl
  case nil =>
    intro path name pointer index o inline s declared required ho
    refine ho.congr (fun p => ?_) fun key => ?_
    · simp [Document.not_among_nil]
    · simp [Document.not_among_nil]
  case ref =>
    intro path name pointer index target rest o parent inherited merged o' hr hi hm ihc ihr inline s
      declared required ho
    obtain ⟨t, ht, -⟩ := (Document.canonical_of_resolveRef hr).definition
    have hmerged := ho.merge (ihc t ht) hm
    have hrest := ihr inline s _ _ ⟨hmerged.declares, hmerged.keeps, hmerged.requires⟩
    refine hrest.congr (fun p => ?_) fun key => ?_
    · rw [Document.exists_among_cons fun child => Document.opens_ref hr ht, or_assoc]
    · rw [Document.exists_among_cons fun child => Document.opens_ref hr ht, or_assoc]
  case inline =>
    intro path name pointer index inner rest o inherited merged o' hm ihs ihr inline s declared
      required ho
    have hmerged := ho.merge (ihs inline) hm
    have hrest := ihr inline s _ _ ⟨hmerged.declares, hmerged.keeps, hmerged.requires⟩
    refine hrest.congr (fun p => ?_) fun key => ?_
    · rw [Document.exists_among_cons fun child => Document.opens_schema, or_assoc]
      rfl
    · rw [Document.exists_among_cons fun child => Document.opens_schema, or_assoc]
      rfl
  case found =>
    intro path name s o hpath hs ih t ht
    rw [hs, Option.some.injEq] at ht
    subst ht
    exact ih false

end Scope

namespace Document

/-- From a union with `null` to the alternative beside `null`. -/
inductive Wraps (d : Document) (site : Site) : Site → Prop where
  | inline {keyword : UnionKeyword} {index : Nat} {inner : Schema}
      (category : site.schema.category = .nullableOf ⟨keyword, index, .schema inner⟩) :
      Wraps d site { site with pointer := site.pointer.push (keyword.step index), schema := inner }
  | component {keyword : UnionKeyword} {index : Nat} {target name : String} {t : Schema}
      (category : site.schema.category = .nullableOf ⟨keyword, index, .ref target⟩)
      (leads : d.resolveRef site.name target = .ok name)
      (definition : d.definition? name = some t) : Wraps d site (.ofComponent name t)

/-- The object schema that a schema is, or that is beside `null` in it. -/
def ObjectOf (d : Document) (site core : Site) : Prop :=
  ReflTransGen d.Wraps site core ∧ core.schema.category = .object

end Document

namespace Scope

variable {scope : Scope} {name : String} {pointer : Pointer} {s : Schema}

/-- An object consists of the parts of the object schema in its outline. -/
theorem outline_object {o : ObjectShape} {inlines : List Inline}
    (h : (scope.outline name pointer s).outcome = .ok (.shape (.object o) inlines))
    (inline : Bool) : ∃ core, scope.document.ObjectOf ⟨name, pointer, inline, s⟩ core ∧
      o.Collects (scope.DeclaredIn core) (scope.document.Requires core) := by
  generalize hshape : Shape.object o = shape at h
  replace h := outlined_of_outline h
  induction h with
  | inside hc _ ih =>
    obtain ⟨core, ⟨hwraps, hobject⟩, hcollects⟩ := ih hshape
    exact ⟨core, ⟨.head (.inline hc) hwraps, hobject⟩, hcollects⟩
  | object hc hfound =>
    cases hshape
    obtain ⟨merged, members, hmerged, rfl⟩ := objectShape_eq_ok hfound
    have hcollects := (merging_collects scope).1 _ _ _ _ _ hmerged inline
    exact ⟨_, ⟨.refl, hc⟩, hcollects.declares, hcollects.keeps, hcollects.requires⟩
  | enum | array | map | anyArray | anyMap | union | primitive => cases hshape

theorem outline_wraps {other : String} {t : Schema}
    (h : (scope.outline name pointer s).outcome = .ok (.sameAs other))
    (ht : scope.document.definition? other = some t) (inline : Bool) :
    ReflTransGen scope.document.Wraps ⟨name, pointer, inline, s⟩ (.ofComponent other t) := by
  refine sameAs_induction (motive := fun pointer s => ReflTransGen scope.document.Wraps
    ⟨name, pointer, inline, s⟩ (.ofComponent other t)) ?reference ?inside h
  case reference =>
    intro pointer s keyword index target hc hr
    exact .single (.component hc hr ht)
  case inside =>
    intro pointer s keyword index inner hc ih
    exact .head (.inline hc) ih

/-- A site that is an object consists of the parts of one object schema. -/
theorem HasShape.collects {site : Site} {o : ObjectShape} (h : scope.HasShape site (.object o)) :
    ∃ core, scope.document.ObjectOf site core ∧
      o.Collects (scope.DeclaredIn core) (scope.document.Requires core) := by
  obtain ⟨n, h⟩ := h
  induction n generalizing site with
  | zero => cases h
  | succ n ih =>
    cases h with
    | own outline => exact outline_object outline site.inline
    | same outline definition within =>
      obtain ⟨core, ⟨hwraps, hobject⟩, hcollects⟩ := ih within
      have hother := outline_wraps outline definition site.inline
      exact ⟨core, ⟨hother.trans hwraps, hobject⟩, hcollects⟩

end Scope

end SchemaModel
