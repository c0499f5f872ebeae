/-
Tabletop.Proofs.Template.Ordering — order and equality of values.

Texts are in the order of their code points, and numbers and truth values in
that of the numbers they count as: as they are where both are signed words,
or else as doubles. Equality goes by the same numbers, but a truth value is
equal only to itself. So of `a < b`, `a == b` and `a > b` exactly one holds,
except between a truth value and the number that it counts as, where none
does (`exactly_one_iff`).

  §1 Numbers    — in one order, or equal.
  §2 Values     — ordered, and equal.
  §3 Operators  — exactly one of three.
-/
import Tabletop.Proofs.Number.Nearest
import Tabletop.Proofs.Value.Same
import Tabletop.Template.Eval

namespace Tabletop

variable {a b : Value} {p q : Numeric} {n : Int} {x y : Float} {flag : Bool}

/-! ## §1 Numbers -/

/-- Both are the same number: as they are if both are whole, or else as doubles. -/
def Numeric.equals : Numeric → Numeric → Bool
  | .int m, .int n => m == n
  | p, q => p.toFloat == q.toFloat

/-- The order of two numbers: as they are if both are whole, or else as doubles. -/
def Numeric.order : Numeric → Numeric → Except Fault Ordering
  | .int m, .int n => .ok (compare m n)
  | p, q => compareFloats p.toFloat q.toFloat

/-- Finite numbers have an order, and by it they are equal if and only if they are the same. -/
theorem Numeric.exists_order (hp : p.toFloat.isFinite = true) (hq : q.toFloat.isFinite = true) :
    ∃ o, p.order q = .ok o ∧ (o = .eq ↔ p.equals q = true) := by
  have doubles : ∀ {x y : Float}, x.isFinite = true → y.isFinite = true →
      ∃ o, compareFloats x y = .ok o ∧ (o = .eq ↔ (x == y) = true) := by
    intro x y hx hy
    refine ⟨_, compareFloats_eq_ok_iff.mpr (floatOrder_of_finite hx hy), ?_⟩
    rw [float_beq_iff, floatOrder_of_finite hx hy, Option.some.injEq]
  cases p with
  | int m =>
    cases q with
    | int n => exact ⟨compare m n, rfl, by rw [compare_eq_iff_eq, equals, beq_iff_eq]⟩
    | float y => exact doubles hp hq
  | float x => cases q <;> exact doubles hp hq

/-! ## §2 Values -/

/-- The value is a number or counts as one: an integer of 64 bits, a finite double, or a truth
value. -/
inductive Value.IsNumeral : Value → Prop
  | int {n : Int} (low : int64Min ≤ n) (high : n < wordBound) : IsNumeral (.int n)
  | float {x : Float} (finite : x.isFinite = true) : IsNumeral (.float x)
  | bool (flag : Bool) : IsNumeral (.bool flag)

/-- The values have an order: they are two texts, or numbers and truth values in any mix. -/
inductive Value.Ordered : Value → Value → Prop
  | texts (s t : String) : Ordered (.text s) (.text t)
  | numerals {a b : Value} (ha : a.IsNumeral) (hb : b.IsNumeral) : Ordered a b

/-- The number that a truth value counts as. -/
def flagNumber (flag : Bool) : Int := if flag then 1 else 0

/-- The value is the number that the truth value counts as. -/
def Value.IsCount (flag : Bool) : Value → Prop
  | .int n => n = flagNumber flag
  | .float x => (x == Float.ofInt (flagNumber flag)) = true
  | _ => False

/-- One of the values is a truth value, and the other the number that it counts as. -/
inductive Value.FlagBesideCount : Value → Value → Prop
  | left {flag : Bool} {v : Value} (count : v.IsCount flag) : FlagBesideCount (.bool flag) v
  | right {flag : Bool} {v : Value} (count : v.IsCount flag) : FlagBesideCount v (.bool flag)

theorem isFinite_flagNumber (flag : Bool) : (Float.ofInt (flagNumber flag)).isFinite = true := by
  cases flag <;> exact isFinite_ofInt (by decide) (by decide)

theorem numeric?_bool (flag : Bool) :
    (Value.bool flag).numeric? = some (.int (flagNumber flag)) := rfl

/-- A whole number is taken as it is if it is a signed word, or else as a double. -/
theorem numeric?_int (n : Int) :
    fitsInt64 n = true ∧ (Value.int n).numeric? = some (.int n) ∨
      fitsInt64 n = false ∧ (Value.int n).numeric? = some (.float (Float.ofInt n)) := by
  cases fits : fitsInt64 n with
  | true => exact .inl ⟨rfl, if_pos fits⟩
  | false => exact .inr ⟨rfl, if_neg (ne_true_of_eq_false fits)⟩

theorem Value.IsNumeral.numeric? (h : a.IsNumeral) :
    ∃ p, a.numeric? = some p ∧ p.toFloat.isFinite = true := by
  cases h with
  | @int n low high =>
    have finite := isFinite_ofInt low high
    rcases numeric?_int n with ⟨_, word⟩ | ⟨_, double⟩
    · exact ⟨.int n, word, finite⟩
    · exact ⟨.float (Float.ofInt n), double, finite⟩
  | @float x finite => exact ⟨.float x, rfl, finite⟩
  | bool flag => exact ⟨_, numeric?_bool flag, isFinite_flagNumber flag⟩

theorem compareValues_of_numeric (ha : a.numeric? = some p) (hb : b.numeric? = some q) :
    compareValues a b = p.order q := by
  unfold compareValues
  split
  · cases ha
  · rw [ha, hb]
    cases p <;> cases q <;> rfl

/-- Two numbers are equal if and only if they are the same number. -/
theorem valuesEqual_of_numbers (ha : a.numeric? = some p) (hb : b.numeric? = some q)
    (numbera : ∀ flag, a ≠ .bool flag) (numberb : ∀ flag, b ≠ .bool flag) :
    valuesEqual a b = p.equals q := by
  unfold valuesEqual
  split
  case h_5 apart_ii apart_if apart_fi apart_ff =>
    cases a with
    | int m =>
      cases b with
      | int n => exact (apart_ii m n rfl rfl).elim
      | float y => exact (apart_if m y rfl rfl).elim
      | bool flag => exact absurd rfl (numberb flag)
      | _ => cases hb
    | float x =>
      cases b with
      | int n => exact (apart_fi x n rfl rfl).elim
      | float y => exact (apart_ff x y rfl rfl).elim
      | bool flag => exact absurd rfl (numberb flag)
      | _ => cases hb
    | bool flag => exact absurd rfl (numbera flag)
    | _ => cases ha
  all_goals
    rw [ha, hb]
    cases p <;> cases q <;> rfl

theorem Numeric.equals_comm (p q : Numeric) : p.equals q = q.equals p := by
  cases p with
  | int m =>
    cases q with
    | int n => exact BEq.comm
    | float y => exact float_beq_comm _ _
  | float x => cases q <;> exact float_beq_comm _ _

/-- A number is the same as a truth value's if it is the number that this counts as. -/
theorem isCount_iff (h : a.IsNumeral) (ha : a.numeric? = some p) (number : ∀ flag, a ≠ .bool flag)
    (flag : Bool) : a.IsCount flag ↔ p.equals (.int (flagNumber flag)) = true := by
  cases h with
  | @int n low high =>
    rcases numeric?_int n with ⟨_, word⟩ | ⟨_, double⟩
    · have same : p = .int n := Option.some.inj (ha.symm.trans word)
      rw [same, Numeric.equals, beq_iff_eq]
      rfl
    · have same : p = .float (Float.ofInt n) := Option.some.inj (ha.symm.trans double)
      have wordn := natAbs_lt_wordBound low high
      have short : (flagNumber flag).natAbs < 2 ^ 53 := by cases flag <;> decide
      have wordf : (flagNumber flag).natAbs < wordBound := Nat.lt_trans short (by decide)
      rw [same]
      change n = flagNumber flag ↔ (Float.ofInt n == Float.ofInt (flagNumber flag)) = true
      rw [float_beq_comm, ofInt_beq_ofInt_iff wordf wordn]
      constructor
      · rintro rfl
        rfl
      · exact fun equal => (eq_of_rounded_eq wordf wordn short equal).symm
  | @float x finite =>
    cases ha
    exact Iff.rfl
  | bool flag => exact absurd rfl (number flag)

theorem flagBesideCount_left : (Value.bool flag).FlagBesideCount a ↔ a.IsCount flag := by
  constructor
  · rintro (count | count)
    · exact count
    · exact absurd count id
  · exact .left

theorem flagBesideCount_right : a.FlagBesideCount (.bool flag) ↔ a.IsCount flag := by
  constructor
  · rintro (count | count)
    · exact absurd count id
    · exact count
  · exact .right

theorem valuesEqual_bool_left (number : ∀ flag, a ≠ .bool flag) :
    valuesEqual (.bool flag) a = false := by
  cases a with
  | bool other => exact absurd rfl (number other)
  | _ => rfl

theorem valuesEqual_bool_right (number : ∀ flag, a ≠ .bool flag) :
    valuesEqual a (.bool flag) = false := by
  cases a with
  | bool other => exact absurd rfl (number other)
  | _ => rfl

theorem Value.eq_bool_or_ne (a : Value) : (∃ flag, a = .bool flag) ∨ ∀ flag, a ≠ .bool flag := by
  cases a with
  | bool flag => exact .inl ⟨flag, rfl⟩
  | _ => exact .inr nofun

/-- Values that count as the same number are equal, or else one of them is a truth value and the
other its number; they are not both. -/
theorem equals_iff_of_numerals (ha : a.IsNumeral) (hb : b.IsNumeral) (pa : a.numeric? = some p)
    (qb : b.numeric? = some q) :
    (p.equals q = true ↔ valuesEqual a b = true ∨ a.FlagBesideCount b) ∧
      ¬ (valuesEqual a b = true ∧ a.FlagBesideCount b) := by
  rcases a.eq_bool_or_ne with ⟨flag, rfl⟩ | numbera
  · cases pa
    rcases b.eq_bool_or_ne with ⟨other, rfl⟩ | numberb
    · cases qb
      have apart : ¬ (Value.bool flag).FlagBesideCount (.bool other) := flagBesideCount_left.mp
      refine ⟨?_, fun both => apart both.2⟩
      rw [or_iff_left apart]
      cases flag <;> cases other <;> decide
    · rw [valuesEqual_bool_left numberb, Numeric.equals_comm, flagBesideCount_left,
        isCount_iff hb qb numberb]
      simp [flagNumber]
  · rcases b.eq_bool_or_ne with ⟨flag, rfl⟩ | numberb
    · cases qb
      rw [valuesEqual_bool_right numbera, flagBesideCount_right, isCount_iff ha pa numbera]
      simp [flagNumber]
    · have apart : ¬ a.FlagBesideCount b := by
        rintro (count | count)
        · exact numbera _ rfl
        · exact numberb _ rfl
      rw [valuesEqual_of_numbers pa qb numbera numberb, or_iff_left apart]
      exact ⟨Iff.rfl, fun both => apart both.2⟩

/-- Of two values that have an order, the first is less, equal or greater; and by the order they are
equal if they are equal or one of them is what the other one counts as. -/
theorem exists_order (ordered : a.Ordered b) :
    ∃ o, compareValues a b = .ok o ∧ (o = .eq ↔ valuesEqual a b = true ∨ a.FlagBesideCount b) ∧
      ¬ (valuesEqual a b = true ∧ a.FlagBesideCount b) := by
  cases ordered with
  | texts s t =>
    have apart : ¬ Value.FlagBesideCount (.text s) (.text t) := by rintro ⟨⟩
    have equal : valuesEqual (.text s) (.text t) = (s == t) := rfl
    refine ⟨compare s t, rfl, ?_, fun both => apart both.2⟩
    rw [or_iff_left apart, compare_eq_iff_eq, equal, beq_iff_eq]
  | numerals ha hb =>
    obtain ⟨p, pa, finitep⟩ := ha.numeric?
    obtain ⟨q, qb, finiteq⟩ := hb.numeric?
    obtain ⟨o, order, equal⟩ := Numeric.exists_order finitep finiteq
    refine ⟨o, (compareValues_of_numeric pa qb).trans order, ?_⟩
    rw [equal]
    exact equals_iff_of_numerals ha hb pa qb

/-! ## §3 Operators -/

section Operators

variable {scope : Scope} {l r : Expr}

theorem eval_binary (op : BinaryOp) (hl : l.eval scope = .ok a) (hr : r.eval scope = .ok b) :
    (Expr.binary op l r).eval scope = applyBinary op a b := by
  rw [Expr.eval, hl, hr]
  rfl

/-- If an order takes for equal what is equal or beside it, it says one of three things of the rest. -/
theorem sum_of_order {o : Ordering} {equal : Bool} {beside : Prop}
    (same : o = .eq ↔ equal = true ∨ beside) (apart : ¬ (equal = true ∧ beside)) :
    o.isLT.toNat + equal.toNat + o.isGT.toNat ≤ 1 ∧
      (o.isLT.toNat + equal.toNat + o.isGT.toNat = 1 ↔ ¬ beside) := by
  cases o <;> cases equal <;> simp_all

/-- Of `l < r`, `l == r` and `l > r` not more than one is true, and one is, except between a truth
value and the number that it counts as. -/
theorem exactly_one_iff (hl : l.eval scope = .ok a) (hr : r.eval scope = .ok b)
    (ordered : a.Ordered b) :
    ∃ less equal greater : Bool,
      (Expr.binary .less l r).eval scope = .ok (.bool less) ∧
        (Expr.binary .equal l r).eval scope = .ok (.bool equal) ∧
        (Expr.binary .greater l r).eval scope = .ok (.bool greater) ∧
        less.toNat + equal.toNat + greater.toNat ≤ 1 ∧
        (less.toNat + equal.toNat + greater.toNat = 1 ↔ ¬ a.FlagBesideCount b) := by
  obtain ⟨o, order, same, apart⟩ := exists_order ordered
  refine ⟨o.isLT, valuesEqual a b, o.isGT, ?_, eval_binary .equal hl hr, ?_, ?_⟩
  · rw [eval_binary .less hl hr, applyBinary, order]
    rfl
  · rw [eval_binary .greater hl hr, applyBinary, order]
    rfl
  · exact sum_of_order same apart

/-- Seven is below ten, and neither equal nor greater. -/
theorem wounds_below_limit :
    let scope := Fields.scope [("wounds", .int 7), ("limit", .float (Float.ofInt 10))]
    (Value.int 7).Ordered (.float (Float.ofInt 10)) ∧
      ∃ less equal greater : Bool,
        (Expr.binary .less (.variable "wounds") (.variable "limit")).eval scope
            = .ok (.bool less) ∧
          (Expr.binary .equal (.variable "wounds") (.variable "limit")).eval scope
            = .ok (.bool equal) ∧
          (Expr.binary .greater (.variable "wounds") (.variable "limit")).eval scope
            = .ok (.bool greater) ∧
          less.toNat + equal.toNat + greater.toNat = 1 := by
  have finite : (Float.ofInt 10).isFinite = true := isFinite_ofInt (by decide) (by decide)
  have ordered : (Value.int 7).Ordered (.float (Float.ofInt 10)) :=
    .numerals (.int (by decide) (by decide)) (.float finite)
  obtain ⟨less, equal, greater, hless, hequal, hgreater, _, one⟩ :=
    @exactly_one_iff _ _ (Fields.scope [("wounds", .int 7), ("limit", .float (Float.ofInt 10))])
      (.variable "wounds") (.variable "limit") rfl rfl ordered
  exact ⟨ordered, less, equal, greater, hless, hequal, hgreater, one.mpr nofun⟩

/-- True is at most one and at least one, but not less, not equal and not greater. -/
theorem true_beside_one :
    let compared := fun op => (Expr.binary op (.literal (.bool true)) (.literal (.int 1))).eval
      (Fields.scope [])
    (Value.bool true).Ordered (.int 1) ∧
      compared .less = .ok (.bool false) ∧ compared .equal = .ok (.bool false) ∧
      compared .greater = .ok (.bool false) ∧
      compared .lessEqual = .ok (.bool true) ∧ compared .greaterEqual = .ok (.bool true) :=
  ⟨.numerals (.bool true) (.int (by decide) (by decide)), rfl, rfl, rfl, rfl, rfl⟩

end Operators

end Tabletop
