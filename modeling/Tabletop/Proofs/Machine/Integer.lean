/-
Tabletop.Proofs.Machine.Integer — operators on two signed words.

The operators are exact where their results are signed words, and doubles
take their place where they are not: those are finite, so no result is null.
Of the quotients there is one that does not fit, that of the least word by
minus one. A remainder has the sign of its divisor and is smaller. All this
holds of expressions on unbounded numbers and of the machine alike: it comes
to the same results without a stop (`eval_words`).

  §1 Floors
  §2 Finite doubles
  §3 Operators on words
  §4 Expressions
-/
import Tabletop.Proofs.Machine.Eval
import Tabletop.Proofs.Number.Finite

namespace Tabletop

variable {a b n : Int} {x : Float}

/-! ## §1 Floors -/

theorem fdiv_eq_floor_of_nonneg (a : Int) (nonneg : 0 ≤ b) : a.fdiv b = ⌊(a / b : ℚ)⌋ := by
  lift b to Nat using nonneg
  rw [Int.fdiv_eq_ediv_of_nonneg a (Int.natCast_nonneg b)]
  exact (Rat.floor_intCast_div_natCast a b).symm

/-- The quotient of whole numbers is the floor of that of rational ones. -/
theorem fdiv_eq_floor (a b : Int) : a.fdiv b = ⌊(a / b : ℚ)⌋ := by
  rcases Int.le_total 0 b with nonneg | nonpos
  · exact fdiv_eq_floor_of_nonneg a nonneg
  · rw [← Int.neg_fdiv_neg, fdiv_eq_floor_of_nonneg (-a) (Int.neg_nonneg_of_nonpos nonpos),
      Int.cast_neg, Int.cast_neg, neg_div_neg_eq]

theorem fmod_eq_floor (a b : Int) : a.fmod b = a - b * ⌊(a / b : ℚ)⌋ := by
  rw [Int.fmod_def, fdiv_eq_floor]

/-- What is left over has the sign of the divisor, and is smaller. -/
theorem fmod_between (a : Int) (nonzero : b ≠ 0) :
    (0 < b ∧ 0 ≤ a.fmod b ∧ a.fmod b < b) ∨ (b < 0 ∧ b < a.fmod b ∧ a.fmod b ≤ 0) := by
  rcases Int.lt_or_gt_of_ne nonzero with negative | positive
  · have opposite := Int.neg_fmod_neg a b
    have low := Int.fmod_nonneg_of_pos (-a) (Int.neg_pos_of_neg negative)
    have high := Int.fmod_lt_of_pos (-a) (Int.neg_pos_of_neg negative)
    omega
  · have low := Int.fmod_nonneg_of_pos a positive
    have high := Int.fmod_lt_of_pos a positive
    omega

theorem sign_fmod (a : Int) (nonzero : b ≠ 0) : a.fmod b = 0 ∨ (a.fmod b).sign = b.sign := by
  by_cases zero : a.fmod b = 0
  · exact Or.inl zero
  · rcases fmod_between a nonzero with ⟨positive, low, _⟩ | ⟨negative, _, high⟩
    · rw [Int.sign_eq_one_of_pos positive, Int.sign_eq_one_of_pos (by omega)]
      exact Or.inr rfl
    · rw [Int.sign_eq_neg_one_of_neg negative, Int.sign_eq_neg_one_of_neg (by omega)]
      exact Or.inr rfl

theorem natAbs_fmod_lt (a : Int) (nonzero : b ≠ 0) : (a.fmod b).natAbs < b.natAbs := by
  have between := fmod_between a nonzero
  omega

/-- The one quotient that is no signed word. -/
theorem fitsInt64_fdiv_eq_false_iff (ha : fitsInt64 a = true) (nonzero : b ≠ 0) :
    fitsInt64 (a.fdiv b) = false ↔ a = int64Min ∧ b = -1 := by
  constructor
  · intro unfit
    have small := Int.natAbs_fdiv_le_natAbs a b
    have parts := Int.mul_fdiv_add_fmod a b
    have between := fmod_between a nonzero
    rw [Machine.fitsInt64_iff] at ha
    rw [Bool.eq_false_iff, Ne, Machine.fitsInt64_iff] at unfit
    -- the quotient is no greater than the dividend, so it is one above the greatest word
    have quotient : a.fdiv b = 9223372036854775808 := by omega
    rw [quotient] at parts
    unfold int64Min
    omega
  · rintro ⟨rfl, rfl⟩
    decide

/-! ## §2 Finite doubles -/

theorem modest_ofInt_of_fits (fits : fitsInt64 n = true) : Modest (Float.ofInt n).toModel.unpack := by
  rw [Machine.fitsInt64_iff] at fits
  exact modest_ofInt (by unfold wordBound; omega)

/-- No other word than zero is rounded to zero. -/
theorem ofInt_beq_zero (fits : fitsInt64 n = true) (nonzero : n ≠ 0) :
    (Float.ofInt n == 0) = false := by
  rw [Machine.fitsInt64_iff] at fits
  have bits : n.natAbs.log2 < 64 := (Nat.log2_lt (Int.natAbs_ne_zero.mpr nonzero)).mpr (by omega)
  obtain ⟨s, e, _, _, normal⟩ := exists_normal_ofInt nonzero (by omega)
  exact normal.beq_zero

/-- The whole number, or the double that takes its place. -/
def exactly (n : Int) (x : Float) : Value := if fitsInt64 n then .int n else .float x

theorem exactOr_of_isFinite (finite : x.isFinite = true) : exactOr n x = exactly n x := by
  unfold exactOr exactly Value.ofFloat
  rw [if_pos finite]

section Words

variable (ha : fitsInt64 a = true) (hb : fitsInt64 b = true)
include ha hb

theorem isFinite_add : (Float.ofInt a + Float.ofInt b).isFinite = true :=
  (modest_ofInt_of_fits ha).add (modest_ofInt_of_fits hb)

theorem isFinite_sub : (Float.ofInt a - Float.ofInt b).isFinite = true :=
  (modest_ofInt_of_fits ha).sub (modest_ofInt_of_fits hb)

theorem isFinite_mul : (Float.ofInt a * Float.ofInt b).isFinite = true :=
  (modest_ofInt_of_fits ha).mul (modest_ofInt_of_fits hb)

end Words

theorem isFinite_neg (ha : fitsInt64 a = true) : (-(Float.ofInt a)).isFinite = true := by
  have opposite := (modest_ofInt_of_fits ha).neg
  change (Float.Model.pack _).unpack.isFinite = true
  rw [opposite.unpack_pack]
  exact opposite.isFinite

/-! ## §3 Operators on words -/

theorem numeric?_of_fits (fits : fitsInt64 n = true) : (Value.int n).numeric? = some (.int n) :=
  if_pos fits

section Operators

variable (ha : fitsInt64 a = true) (hb : fitsInt64 b = true)
include ha hb

theorem numericPair_words (op : BinaryOp) :
    numericPair op (.int a) (.int b) = .ok (.int a, .int b) := by
  unfold numericPair
  rw [numeric?_of_fits ha, numeric?_of_fits hb]

/-- An operator that is exact where the result fits. -/
theorem arithmetic_words {op : BinaryOp} {exact : Int → Int → Int}
    {rounded : Float → Float → Float}
    (finite : (rounded (Float.ofInt a) (Float.ofInt b)).isFinite = true) :
    arithmetic op exact rounded (.int a) (.int b)
      = .ok (exactly (exact a b) (rounded (Float.ofInt a) (Float.ofInt b))) := by
  unfold arithmetic
  rw [numericPair_words ha hb, ← exactOr_of_isFinite finite]
  rfl

theorem floorDivide_words (nonzero : b ≠ 0) : floorDivide (.int a) (.int b)
    = .ok (exactly ⌊(a / b : ℚ)⌋ (Float.ofInt 9223372036854775808)) := by
  unfold floorDivide
  rw [numericPair_words ha hb, ← fdiv_eq_floor]
  change (if (Float.ofInt b == 0) = true then _ else Except.ok (exactOr (a.fdiv b) _)) = _
  rw [ofInt_beq_zero hb nonzero, if_neg Bool.false_ne_true]
  cases fits : fitsInt64 (a.fdiv b) with
  | true => rw [exactOr, exactly, if_pos fits, if_pos fits]
  | false =>
    obtain ⟨rfl, rfl⟩ := (fitsInt64_fdiv_eq_false_iff ha nonzero).mp fits
    have least : floorFloat (Float.ofInt int64Min / Float.ofInt (-1))
        = Float.ofInt 9223372036854775808 := by decide +kernel
    have finite : (Float.ofInt 9223372036854775808).isFinite = true := by decide +kernel
    change Except.ok (exactOr _ (floorFloat (Float.ofInt int64Min / Float.ofInt (-1)))) = _
    rw [least, exactOr_of_isFinite finite]

theorem floorModulo_words (nonzero : b ≠ 0) :
    floorModulo (.int a) (.int b) = .ok (.int (a - b * ⌊(a / b : ℚ)⌋)) := by
  unfold floorModulo
  rw [numericPair_words ha hb, ← fmod_eq_floor]
  change (if (Float.ofInt b == 0) = true then _ else Except.ok (Value.int (a.fmod b))) = _
  rw [ofInt_beq_zero hb nonzero, if_neg Bool.false_ne_true]

end Operators

theorem negate_word (ha : fitsInt64 a = true) :
    negate (.int a) = .ok (exactly (-a) (-(Float.ofInt a))) := by
  unfold negate
  rw [numeric?_of_fits ha, ← exactOr_of_isFinite (isFinite_neg ha)]

/-- Nothing is divided by zero. -/
theorem words_by_zero (ha : fitsInt64 a = true) :
    divide (.int a) (.int 0) = .error .divisionByZero ∧
    floorDivide (.int a) (.int 0) = .error .divisionByZero ∧
    floorModulo (.int a) (.int 0) = .error .moduloByZero := by
  have zero : (Float.ofInt 0 == 0) = true := by decide +kernel
  have pair : ∀ op, numericPair op (.int a) (.int 0) = .ok (.int a, .int 0) :=
    numericPair_words ha rfl
  refine ⟨?_, ?_, ?_⟩
  · simp only [divide, pair, bind, Except.bind, Numeric.toFloat, zero, if_true]
  · simp only [floorDivide, pair, bind, Except.bind, Numeric.toFloat, zero, if_true]
  · simp only [floorModulo, pair, bind, Except.bind, Numeric.toFloat, zero, if_true]

/-! ## §4 Expressions -/

/-- The expression comes to the result, on unbounded numbers and on the machine. -/
structure Expr.ComesTo (scope : Scope) (e : Expr) (r : Except Fault Value) : Prop where
  unbounded : e.eval scope = r
  machine : Machine.eval scope e = Machine.settle r

section Expressions

variable {scope : Scope} {left right : Expr} {v w : Value} {r : Except Fault Value}

theorem Expr.ComesTo.negate (h : left.ComesTo scope (.ok v)) :
    (Expr.negate left).ComesTo scope (Tabletop.negate v) := by
  constructor
  · rw [Expr.eval, h.unbounded]
    rfl
  · rw [Machine.eval, h.machine, ← Machine.negate_eq]
    rfl

/-- The value of an operator is a number, so there is room for it. -/
theorem Expr.ComesTo.binary {op : BinaryOp} (hl : left.ComesTo scope (.ok v))
    (hr : right.ComesTo scope (.ok w)) (result : applyBinary op v w = r)
    (room : ∀ u, r = .ok u → Machine.hasRoom u = true) :
    (Expr.binary op left right).ComesTo scope r := by
  subst result
  constructor
  · rw [Expr.eval, hl.unbounded, hr.unbounded]
    rfl
  · rw [Machine.eval, hl.machine, hr.machine]
    change (Machine.applyBinary op v w >>= _) = _
    rw [Machine.applyBinary_eq]
    cases found : applyBinary op v w with
    | error fault => rfl
    | ok u =>
      change (liftM (Machine.store u) : Machine.Attempt Fault Value) = _
      rw [Machine.store, if_pos (room u found)]
      rfl

theorem hasRoom_exactly (n : Int) (x : Float) : Machine.hasRoom (exactly n x) = true := by
  unfold exactly
  split <;> rfl

/-- Arithmetic on signed words is exact, or else gives a double, and never wraps. -/
theorem eval_words (ha : fitsInt64 a = true) (hb : fitsInt64 b = true)
    (hl : left.ComesTo scope (.ok (.int a))) (hr : right.ComesTo scope (.ok (.int b))) :
    (Expr.binary .add left right).ComesTo scope
      (.ok (exactly (a + b) (Float.ofInt a + Float.ofInt b))) ∧
    (Expr.binary .subtract left right).ComesTo scope
      (.ok (exactly (a - b) (Float.ofInt a - Float.ofInt b))) ∧
    (Expr.binary .multiply left right).ComesTo scope
      (.ok (exactly (a * b) (Float.ofInt a * Float.ofInt b))) ∧
    (Expr.negate left).ComesTo scope (.ok (exactly (-a) (-(Float.ofInt a)))) ∧
    (b ≠ 0 →
      (Expr.binary .floorDivide left right).ComesTo scope
        (.ok (exactly ⌊(a / b : ℚ)⌋ (Float.ofInt 9223372036854775808))) ∧
      (fitsInt64 ⌊(a / b : ℚ)⌋ = false ↔ a = int64Min ∧ b = -1) ∧
      (Expr.binary .modulo left right).ComesTo scope (.ok (.int (a - b * ⌊(a / b : ℚ)⌋))) ∧
      (a - b * ⌊(a / b : ℚ)⌋ = 0 ∨ (a - b * ⌊(a / b : ℚ)⌋).sign = b.sign) ∧
      (a - b * ⌊(a / b : ℚ)⌋).natAbs < b.natAbs) ∧
    (b = 0 →
      (Expr.binary .divide left right).ComesTo scope (.error .divisionByZero) ∧
      (Expr.binary .floorDivide left right).ComesTo scope (.error .divisionByZero) ∧
      (Expr.binary .modulo left right).ComesTo scope (.error .moduloByZero)) := by
  have number : ∀ n x u, (Except.ok (exactly n x) : Except Fault Value) = .ok u →
      Machine.hasRoom u = true := by
    rintro n x _ ⟨⟩
    exact hasRoom_exactly n x
  refine ⟨?_, ?_, ?_, ?_, ?_, ?_⟩
  · exact hl.binary hr (arithmetic_words ha hb (isFinite_add ha hb)) (number _ _)
  · exact hl.binary hr (arithmetic_words ha hb (isFinite_sub ha hb)) (number _ _)
  · exact hl.binary hr (arithmetic_words ha hb (isFinite_mul ha hb)) (number _ _)
  · rw [← negate_word ha]
    exact hl.negate
  · intro nonzero
    refine ⟨hl.binary hr (floorDivide_words ha hb nonzero) (number _ _), ?_,
      hl.binary hr (floorModulo_words ha hb nonzero) ?_, ?_, ?_⟩
    · rw [← fdiv_eq_floor]
      exact fitsInt64_fdiv_eq_false_iff ha nonzero
    · rintro _ ⟨⟩
      rfl
    · rw [← fmod_eq_floor]
      exact sign_fmod a nonzero
    · rw [← fmod_eq_floor]
      exact natAbs_fmod_lt a nonzero
  · rintro rfl
    obtain ⟨quotient, floor, remainder⟩ := words_by_zero ha
    exact ⟨hl.binary hr quotient nofun, hl.binary hr floor nofun, hl.binary hr remainder nofun⟩

end Expressions

/-- The least word and minus one as named values. -/
def extremes : Scope := Fields.scope [("n", .int int64Min), ("d", .int (-1))]

/-- The quotient of the least word by minus one is a double, and nothing is left over. -/
theorem eval_words_of_extremes :
    (Expr.binary .floorDivide (.variable "n") (.variable "d")).ComesTo extremes
      (.ok (.float (Float.ofInt 9223372036854775808))) ∧
    (Expr.binary .modulo (.variable "n") (.variable "d")).ComesTo extremes (.ok (.int 0)) := by
  have least : (Expr.variable "n").ComesTo extremes (.ok (.int int64Min)) :=
    ⟨by rw [Expr.eval]; rfl, by rw [Machine.eval]; rfl⟩
  have unit : (Expr.variable "d").ComesTo extremes (.ok (.int (-1))) :=
    ⟨by rw [Expr.eval]; rfl, by rw [Machine.eval]; rfl⟩
  have quotient : ⌊((int64Min : Int) / (-1 : Int) : ℚ)⌋ = 9223372036854775808 := by
    rw [← fdiv_eq_floor]
    rfl
  obtain ⟨floor, -, rest, -⟩ :=
    (eval_words (a := int64Min) (b := -1) rfl rfl least unit).2.2.2.2.1 (by decide)
  rw [quotient] at floor rest
  exact ⟨floor, rest⟩

end Tabletop
