import Mathlib.Algebra.Order.Field.Basic
import Mathlib.Algebra.Order.Field.Rat
import Mathlib.Tactic.NormNum
import SchemaModel.Classify
import SchemaModel.Proofs.Computed
import SchemaModel.Proofs.Resolve.Inlined

/-!
What the bounds of a property admit, against what the keywords of its schema ask for. A schema may
bound numbers twice at one end, by `minimum` or `maximum` and by a number as exclusive keyword, and
a property has one bound at each end. It is never stricter than the keywords, and it says the same
unless it is the exclusive one of two and the other is tighter
(`Scope.resolveProperty_bounds_iff`).
-/

namespace SchemaModel

/-- The exact value of a double. -/
def Double.value (x : Double) : ℚ := (if x.negative then -1 else 1) * x.mantissa * 2 ^ x.exponent

/-- The exact value of a number. -/
def Number.value : Number → ℚ
  | .int n => n
  | .double x => x.value

/-- The two ends of a range of numbers. -/
inductive Side where
  | lower
  | upper
deriving DecidableEq, Repr

namespace Side

/-- The order of numbers as it is seen from an end. -/
def le : Side → ℚ → ℚ → Prop
  | lower, a, b => a ≤ b
  | upper, a, b => b ≤ a

def other : Side → Side
  | lower => upper
  | upper => lower

/-- A number on the inner side of a bound, and not at it if the bound is strict. -/
def Within (side : Side) (bound x : ℚ) (strict : Prop) : Prop :=
  side.le bound x ∧ (strict → x ≠ bound)

variable {side : Side} {bound m x y : ℚ} {strict : Prop}

theorem le_of_le_of_le (hm : side.le m bound) (hx : side.le bound x) : side.le m x := by
  cases side with
  | lower => exact le_trans hm hx
  | upper => exact le_trans hx hm

/-- Going outwards at one end does not leave the bound at the other. -/
theorem Within.outwards (h : side.other.Within bound y strict) (hx : side.le x y) :
    side.other.Within bound x strict := by
  obtain ⟨hle, hne⟩ := h
  cases side with
  | lower =>
    have hxy : x ≤ y := hx
    have hyb : y ≤ bound := hle
    exact ⟨hxy.trans hyb, fun hs hxb => hne hs (le_antisymm hyb (hxb ▸ hxy))⟩
  | upper =>
    have hxy : y ≤ x := hx
    have hyb : bound ≤ y := hle
    exact ⟨hyb.trans hxy, fun hs hxb => hne hs (le_antisymm (hxb ▸ hxy) hyb)⟩

/-- Between a strict bound and a tighter one there are numbers, as far out as one likes. -/
theorem Within.exists_short_of (h : side.Within bound y True) (hm : ¬side.le m bound) :
    ∃ x, side.Within bound x True ∧ ¬side.le m x ∧ side.le x y := by
  obtain ⟨hle, hne⟩ := h
  cases side with
  | lower =>
    have hy : bound < y := lt_of_le_of_ne hle (hne trivial).symm
    have hbm : bound < m := not_le.1 hm
    obtain ⟨x, hbx, hx⟩ := exists_between (lt_min hy hbm)
    exact ⟨x, ⟨hbx.le, fun _ => hbx.ne'⟩, not_le.2 (hx.trans_le (min_le_right _ _)),
      (hx.trans_le (min_le_left _ _)).le⟩
  | upper =>
    have hy : y < bound := lt_of_le_of_ne hle (hne trivial)
    have hmb : m < bound := not_le.1 hm
    obtain ⟨x, hx, hxb⟩ := exists_between (max_lt hy hmb)
    exact ⟨x, ⟨hxb.le, fun _ => hxb.ne⟩, not_le.2 ((le_max_right _ _).trans_lt hx),
      ((le_max_left _ _).trans_lt hx).le⟩

end Side

def FieldConstraints.bound? (c : FieldConstraints) : Side → Option NumericBound
  | .lower => c.minimum
  | .upper => c.maximum

/-- The numbers that the bounds of a property admit. -/
def FieldConstraints.Admits (c : FieldConstraints) (value : Number → ℚ) (x : ℚ) : Prop :=
  ∀ side b, c.bound? side = some b → side.Within (value b.value) x b.exclusive

namespace Schema

def plainBound? (s : Schema) : Side → Option Number
  | .lower => s.minimum
  | .upper => s.maximum

def exclusiveBound? (s : Schema) : Side → Option ExclusiveBound
  | .lower => s.exclusiveMinimum
  | .upper => s.exclusiveMaximum

/-- What the keywords ask of a number at one end: `minimum` or `maximum` is strict if a flag beside
it says so, and a number beside it is a strict bound of its own. -/
structure AsksAt (s : Schema) (value : Number → ℚ) (side : Side) (x : ℚ) : Prop where
  plain : ∀ m, s.plainBound? side = some m →
    side.Within (value m) x (s.exclusiveBound? side = some (.flag true))
  exclusive : ∀ b, s.exclusiveBound? side = some (.value b) → side.Within (value b) x True

/-- The numbers that the keywords allow. -/
def Asks (s : Schema) (value : Number → ℚ) (x : ℚ) : Prop := ∀ side, s.AsksAt value side x

/-- An end at which the exclusive bound hides one that is tighter. -/
def Overlooks (s : Schema) (value : Number → ℚ) (side : Side) : Prop :=
  ∃ m b, s.plainBound? side = some m ∧ s.exclusiveBound? side = some (.value b) ∧
    ¬side.le (value m) (value b)

/-- The constraints of a numeric property. -/
def bounds (s : Schema) : FieldConstraints where
  pattern := none
  minLength := none
  maxLength := none
  minimum := numericBound s.minimum s.exclusiveMinimum
  maximum := numericBound s.maximum s.exclusiveMaximum

variable {s : Schema} {value : Number → ℚ} {side : Side} {x : ℚ}

theorem bound?_bounds (s : Schema) (side : Side) :
    s.bounds.bound? side = numericBound (s.plainBound? side) (s.exclusiveBound? side) := by
  cases side <;> rfl

theorem admits_of_asks (h : s.Asks value x) : s.bounds.Admits value x := by
  intro side b hb
  obtain ⟨hplain, hexclusive⟩ := h side
  rw [bound?_bounds] at hb
  unfold numericBound at hb
  split at hb
  · rename_i bound hbound
    cases hb
    exact ⟨(hexclusive bound hbound).1, fun _ => (hexclusive bound hbound).2 trivial⟩
  · rename_i flag hflag
    obtain ⟨m, hm, rfl⟩ := Option.map_eq_some_iff.1 hb
    refine ⟨(hplain m hm).1, fun hstrict => (hplain m hm).2 ?_⟩
    rw [hflag]
    exact congrArg (some ∘ ExclusiveBound.flag) hstrict
  · obtain ⟨m, hm, rfl⟩ := Option.map_eq_some_iff.1 hb
    exact ⟨(hplain m hm).1, nofun⟩

/-- Where nothing is overlooked, the bound asks for what the keywords ask for. -/
theorem asksAt_of_admits (ho : ¬s.Overlooks value side) (h : s.bounds.Admits value x) :
    s.AsksAt value side x := by
  have hbound : ∀ b, numericBound (s.plainBound? side) (s.exclusiveBound? side) = some b →
      side.Within (value b.value) x b.exclusive := fun b hb => h side b (by rw [bound?_bounds, hb])
  cases he : s.exclusiveBound? side with
  | none =>
    rw [he] at hbound
    refine ⟨?_, by simp [he]⟩
    intro m hm
    rw [hm] at hbound
    exact ⟨(hbound _ rfl).1, by simp [he]⟩
  | some exclusive =>
    rw [he] at hbound
    cases exclusive with
    | flag strict =>
      refine ⟨?_, by simp [he]⟩
      intro m hm
      rw [hm] at hbound
      refine ⟨(hbound _ rfl).1, fun hstrict => (hbound _ rfl).2 ?_⟩
      rw [he, Option.some.injEq, ExclusiveBound.flag.injEq] at hstrict
      exact hstrict
    | value b =>
      have hb : side.Within (value b) x True :=
        ⟨(hbound _ rfl).1, fun _ => (hbound _ rfl).2 rfl⟩
      constructor
      · intro m hm
        have hle : side.le (value m) (value b) := by
          by_contra hle
          exact ho ⟨m, b, hm, he, hle⟩
        exact ⟨Side.le_of_le_of_le hle hb.1, by simp [he]⟩
      · intro b' hb'
        rw [he, Option.some.injEq, ExclusiveBound.value.injEq] at hb'
        exact hb' ▸ hb

/-- If a tighter bound is overlooked, numbers short of it are admitted, if any are. -/
theorem exists_admitted (ho : s.Overlooks value side) (h : s.bounds.Admits value x) :
    ∃ y, s.bounds.Admits value y ∧ ¬s.Asks value y := by
  obtain ⟨m, b, hm, hb, hle⟩ := ho
  have hbound : s.bounds.bound? side = some ⟨b, true⟩ := by rw [bound?_bounds, hb]; rfl
  have hx : side.Within (value b) x True :=
    ⟨(h side _ hbound).1, fun _ => (h side _ hbound).2 rfl⟩
  obtain ⟨y, hy, hym, hyx⟩ := hx.exists_short_of hle
  refine ⟨y, ?_, fun hasks => hym ((hasks side).plain m hm).1⟩
  intro side' b' hb'
  rcases eq_or_ne side' side with rfl | hne
  · rw [hbound, Option.some.injEq] at hb'
    subst hb'
    exact ⟨hy.1, fun _ => hy.2 trivial⟩
  · obtain rfl : side' = side.other := by
      cases side <;> cases side' <;> first | rfl | exact absurd rfl hne
    exact (h _ b' hb').outwards hyx

/-- The bounds admit what the keywords allow, unless they admit something and overlook a tighter
bound. -/
theorem admits_iff_asks : (∀ x, s.bounds.Admits value x ↔ s.Asks value x) ↔
    ((∃ x, s.bounds.Admits value x) → ∀ side, ¬s.Overlooks value side) := by
  constructor
  · rintro hsame ⟨x, hx⟩ side ho
    obtain ⟨y, hy, hny⟩ := exists_admitted ho hx
    exact hny ((hsame y).1 hy)
  · intro h x
    exact ⟨fun hx side => asksAt_of_admits (h ⟨x, hx⟩ side) hx, admits_of_asks⟩

end Schema

section

variable [Libraries]

/-- A numeric property has no other constraints than its bounds. -/
theorem fieldConstraints_of_numeric {type : Primitive} (h : type.isNumeric) (owner key : String)
    (s : Schema) : fieldConstraints owner key type s = pure s.bounds := by
  cases type <;> first | rfl | cases h

namespace Scope

variable {scope : Scope} {owner key : String} {pointer : Pointer} {node : Node}

/-- A property resolves if its type and its keywords are found. -/
theorem exists_resolveProperty {type : TypeRef} {inlines : List Inline} {e : Schema}
    (ht : (scope.typeNode [] owner (Naming.inlineName owner key) node
      (pointer.push (.property key))).outcome = .ok (type, inlines))
    (he : scope.document.effective owner node = .ok e) :
    ∃ p, (scope.resolveProperty owner pointer key node).outcome = .ok p ∧ p.type = type ∧
      (propertyKind owner key node type e).outcome = .ok p.kind := by
  obtain ⟨kind, hkind⟩ := exists_propertyKind owner key node type e
  obtain ⟨nullable, hnullable⟩ := Document.exists_isNullable he
  refine ⟨⟨key, type, kind, nullable, e.default, e.description, inlines⟩, ?_, rfl, hkind⟩
  unfold resolveProperty
  simp only [Traced.outcome_bind_eq_ok_iff, Traced.outcome_lift]
  exact ⟨(type, inlines), ht, e, he, kind, hkind, nullable, hnullable, rfl⟩

/-- A node of a numeric type resolves to a property with bounds, which are what its checks say. The
bounds admit all numbers that the keywords allow, and, if they admit any, no others exactly if at
neither end a number as exclusive keyword makes them overlook a tighter bound; however the values
of numbers are read. -/
theorem resolveProperty_bounds_iff {type : Primitive} {inlines : List Inline}
    (hnumeric : type.isNumeric)
    (ht : (scope.typeNode [] owner (Naming.inlineName owner key) node
      (pointer.push (.property key))).outcome = .ok (.primitive type, inlines))
    (value : Number → ℚ) :
    ∃ e p c, scope.document.effective owner node = .ok e ∧
      (scope.resolveProperty owner pointer key node).outcome = .ok p ∧
      p.type = .primitive type ∧ p.kind = .field c ∧
      p.kind.checks = (c.minimum.map fun b => Check.decimalMin b.value.text !b.exclusive).toList ++
        (c.maximum.map fun b => Check.decimalMax b.value.text !b.exclusive).toList ∧
      (∀ x, e.Asks value x → c.Admits value x) ∧
      ((∀ x, c.Admits value x ↔ e.Asks value x) ↔
        ((∃ x, c.Admits value x) → ∀ side, ¬e.Overlooks value side)) := by
  obtain rfl : inlines = [] := (typeNode_inlines ht).resolve_right nofun
  obtain ⟨e, he⟩ := exists_effective ht
  obtain ⟨p, hp, htype, hkind⟩ := exists_resolveProperty ht he
  have hfield : p.kind = .field e.bounds := by
    simp only [propertyKind, fieldConstraints_of_numeric hnumeric, pure_bind,
      Traced.outcome_pure, Except.ok.injEq] at hkind
    exact hkind.symm
  refine ⟨e, p, e.bounds, he, hp, htype, hfield, ?_, fun x => Schema.admits_of_asks,
    Schema.admits_iff_asks⟩
  rw [hfield]
  rfl

end Scope

end

/-- A number of at least ten, and of more than five. -/
def tenAndFive : Schema :=
  { Schema.empty with
    type := some (.single .number)
    minimum := some (.int 10)
    exclusiveMinimum := some (.value (.int 5)) }

def tenAndFiveOwner : Document :=
  ⟨"3.0.3", default,
    [("S", .schema { Schema.empty with
        type := some (.single .object)
        properties := [("p", .schema tenAndFive)] })], by decide⟩

theorem typeNode_tenAndFive : (Scope.typeNode ⟨tenAndFiveOwner, []⟩ [] "S"
    (Naming.inlineName "S" "p") (.schema tenAndFive)
    ((Pointer.ofComponent "S").push (.property "p"))).outcome = .ok (.primitive .decimal, []) := by
  cbv

theorem resolveProperty_bounds_iff_ten_and_five :
    Primitive.decimal.isNumeric ∧
    (Scope.typeNode ⟨tenAndFiveOwner, []⟩ [] "S" (Naming.inlineName "S" "p") (.schema tenAndFive)
      ((Pointer.ofComponent "S").push (.property "p"))).outcome = .ok (.primitive .decimal, []) ∧
    ∃ e p c, tenAndFiveOwner.effective "S" (.schema tenAndFive) = .ok e ∧
      (Scope.resolveProperty ⟨tenAndFiveOwner, []⟩ "S" (.ofComponent "S") "p"
        (.schema tenAndFive)).outcome = .ok p ∧
      p.type = .primitive .decimal ∧ p.kind = .field c ∧
      p.kind.checks = (c.minimum.map fun b => Check.decimalMin b.value.text !b.exclusive).toList ++
        (c.maximum.map fun b => Check.decimalMax b.value.text !b.exclusive).toList ∧
      (∀ x, e.Asks Number.value x → c.Admits Number.value x) ∧
      ((∀ x, c.Admits Number.value x ↔ e.Asks Number.value x) ↔
        ((∃ x, c.Admits Number.value x) → ∀ side, ¬e.Overlooks Number.value side)) :=
  ⟨rfl, typeNode_tenAndFive, Scope.resolveProperty_bounds_iff rfl typeNode_tenAndFive Number.value⟩

/-- The property admits seven, which is less than ten. -/
theorem tenAndFive_admits_seven :
    tenAndFiveOwner.effective "S" (.schema tenAndFive) = .ok tenAndFive ∧
    ∃ p c, (Scope.resolveProperty ⟨tenAndFiveOwner, []⟩ "S" (.ofComponent "S") "p"
        (.schema tenAndFive)).outcome = .ok p ∧
      p.type = .primitive .decimal ∧ p.kind = .field c ∧
      c.Admits Number.value 7 ∧ ¬tenAndFive.Asks Number.value 7 := by
  have he : tenAndFiveOwner.effective "S" (.schema tenAndFive) = .ok tenAndFive := by cbv
  obtain ⟨p, hp, htype, hkind⟩ := Scope.exists_resolveProperty typeNode_tenAndFive he
  have hfield : p.kind = .field tenAndFive.bounds := (Except.ok.inj hkind).symm
  refine ⟨he, p, _, hp, htype, hfield, ?_, fun hasks => ?_⟩
  · intro side b hb
    rw [Schema.bound?_bounds] at hb
    cases side with
    | lower =>
      cases hb
      show (5 : ℚ) ≤ 7 ∧ (_ → (7 : ℚ) ≠ 5)
      norm_num
    | upper => cases hb
  · have hten : (10 : ℚ) ≤ 7 := ((hasks .lower).plain (.int 10) rfl).1
    norm_num at hten

end SchemaModel
