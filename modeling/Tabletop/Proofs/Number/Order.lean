/-
Tabletop.Proofs.Number.Order — the order of doubles is that of their numbers.

Doubles are compared by their signs, exponents and mantissas. Two of them
that are not NaN are in exactly one order, and turned round in the opposite
one. Finite ones are in the order of the exact numbers behind them: a
mantissa is full unless the exponent is the least, so of two exponents the
greater one belongs to the greater number.

  §1 Comparing     — one order, and the opposite one.
  §2 Exact numbers — what the bits of a finite double stand for.
  §3 The order     — of doubles, and of their numbers.
-/
import Tabletop.Proofs.Number.Parts
import Tabletop.Template.Arithmetic

namespace Tabletop

open Float.Model Float.Model.UnpackedFloat

variable {s t : UnpackedFloat.Sign} {m n : Nat} {e f : Int} {u v : UnpackedFloat} {x y : Float}

/-! ## §1 Comparing -/

/-- How two doubles compare; not at all if one of them is NaN. -/
def floatOrder (x y : Float) : Option Ordering := x.toModel.unpack.compare y.toModel.unpack

theorem float_lt_iff : x < y ↔ floatOrder x y = some .lt := by
  change decide ((x.toModel.unpack.compare y.toModel.unpack == some .lt) = true) = true ↔ _
  rw [decide_eq_true_iff, beq_iff_eq, floatOrder]

theorem float_beq_iff : (x == y) = true ↔ floatOrder x y = some .eq := by
  change (x.toModel.unpack.compare y.toModel.unpack == some .eq) = true ↔ _
  rw [beq_iff_eq, floatOrder]

/-- Turned round, the order is the opposite one. -/
theorem compare_unpacked_swap (u v : UnpackedFloat) :
    u.compare v = (v.compare u).map Ordering.swap := by
  have magnitudes : ∀ (m n : Nat) (e f : Int), (compare e f).then (compare m n)
      = ((compare f e).then (compare n m)).swap := by
    intro m n e f
    rw [Ordering.swap_then, ← Std.OrientedCmp.eq_swap, ← Std.OrientedCmp.eq_swap]
  cases u with
  | notANumber => cases v <;> rfl
  | infinity s =>
    cases v with
    | infinity t => cases s <;> cases t <;> rfl
    | notANumber => rfl
    | zero t => cases s <;> rfl
    | finite t n f => cases s <;> rfl
  | zero s =>
    cases v with
    | infinity t => cases t <;> rfl
    | notANumber => rfl
    | zero t => rfl
    | finite t n f => cases t <;> rfl
  | finite s m e =>
    cases v with
    | infinity t => cases s <;> cases t <;> rfl
    | notANumber => rfl
    | zero t => cases s <;> rfl
    | finite t n f =>
      cases s <;> cases t
      · exact congrArg some (congrArg Ordering.swap (magnitudes m n e f))
      · rfl
      · rfl
      · exact congrArg some (magnitudes m n e f)

theorem floatOrder_swap (x y : Float) : floatOrder y x = (floatOrder x y).map Ordering.swap :=
  compare_unpacked_swap _ _

theorem float_beq_comm (x y : Float) : (x == y) = (y == x) := by
  rw [Bool.eq_iff_iff, float_beq_iff, float_beq_iff, floatOrder_swap x y]
  cases floatOrder x y with
  | none => simp
  | some o => cases o <;> simp

/-- The order that is found is the one that there is. -/
theorem compareFloats_eq_ok_iff {o : Ordering} :
    compareFloats x y = .ok o ↔ floatOrder x y = some o := by
  unfold compareFloats
  simp only [float_lt_iff, float_beq_iff]
  rw [floatOrder_swap x y]
  cases floatOrder x y with
  | none => simp
  | some found => cases found <;> simp

/-! ## §2 Exact numbers -/

/-- The number that an unpacked double stands for. -/
def unpackedNumber : UnpackedFloat → ℚ
  | .finite s m e _ => (s.apply m : Int) * 2 ^ e
  | _ => 0

theorem unpackedNumber_positive (m : Nat) (e : Int) (positive : 0 < m) :
    unpackedNumber (.finite .positive m e positive) = m * 2 ^ e := by
  change ((m : Int) : ℚ) * 2 ^ e = m * 2 ^ e
  rw [Int.cast_natCast]

theorem unpackedNumber_negative (m : Nat) (e : Int) (positive : 0 < m) :
    unpackedNumber (.finite .negative m e positive) = -(m * 2 ^ e) := by
  change ((-(m : Int) : Int) : ℚ) * 2 ^ e = -(m * 2 ^ e)
  rw [Int.cast_neg, Int.cast_natCast, neg_mul]

theorem unpackedNumber_neg (u : UnpackedFloat) : unpackedNumber u.neg = -unpackedNumber u := by
  cases u with
  | finite s m e positive =>
    cases s
    · change unpackedNumber (.finite .positive m e positive) = _
      rw [unpackedNumber_positive, unpackedNumber_negative, neg_neg]
    · change unpackedNumber (.finite .negative m e positive) = _
      rw [unpackedNumber_positive, unpackedNumber_negative]
  | _ => exact neg_zero.symm

theorem unpackedNumber_pos (positive : 0 < m) :
    0 < unpackedNumber (.finite .positive m e positive) := by
  rw [unpackedNumber_positive]
  exact mul_pos (by exact_mod_cast positive) (zpow_pos (by norm_num) e)

theorem unpackedNumber_lt_zero (positive : 0 < m) :
    unpackedNumber (.finite .negative m e positive) < 0 := by
  rw [unpackedNumber_negative, neg_lt_zero]
  exact mul_pos (by exact_mod_cast positive) (zpow_pos (by norm_num) e)

/-- What the bits of a finite double are unpacked to: a full mantissa, or a shorter one at the least
exponent. -/
inductive Packed : UnpackedFloat → Prop
  | zero (s : UnpackedFloat.Sign) : Packed (.zero s)
  | finite {s : UnpackedFloat.Sign} {m : Nat} {e : Int} {positive : 0 < m} (short : m < 2 ^ 53)
      (least : -1074 ≤ e) (full : e = -1074 ∨ 2 ^ 52 ≤ m) : Packed (.finite s m e positive)

namespace Binary64

theorem ofFloat_shape (x : Float) :
    -1074 ≤ (ofFloat x).exponent ∧ ((ofFloat x).exponent = -1074 ∨ 2 ^ 52 ≤ (ofFloat x).mantissa) := by
  by_cases least : x.toBits.toNat / 2 ^ 52 % 2 ^ 11 = 0
  · rw [ofFloat_of_least least]
    exact ⟨Int.le_refl _, Or.inl rfl⟩
  · rw [ofFloat_of_more least]
    exact ⟨by dsimp only; omega, Or.inr (Nat.le_add_right _ _)⟩

/-- A zero has no digits. -/
theorem mantissa_ofFloat_of_zero (h : x.toModel.unpack = .zero s) : (ofFloat x).mantissa = 0 := by
  have mantissa := toNat_unpackMantissa x.toModel.toBits.toBitVec
  have exponent := toNat_unpackExponent x.toModel.toBits.toBitVec
  change _ = x.toBits.toNat % _ at mantissa
  change _ = x.toBits.toNat / _ % _ at exponent
  unfold Float.Model.unpack UnpackedFloat.unpack at h
  dsimp only at h
  split at h
  · split at h <;> cases h
  · split at h
    · rename_i least
      rw [least] at exponent
      rw [ofFloat_of_least exponent.symm]
      split at h
      · rename_i nothing
        rw [nothing] at mantissa
        exact mantissa.symm
      · cases h
    · cases h

/-- The parts of a finite double stand for the number that it is unpacked to. -/
theorem toRat_ofFloat (finite : x.isFinite = true) :
    (ofFloat x).toRat = unpackedNumber x.toModel.unpack := by
  change x.toModel.unpack.isFinite = true at finite
  cases unpacked : x.toModel.unpack with
  | notANumber =>
    rw [unpacked] at finite
    cases finite
  | infinity s =>
    rw [unpacked] at finite
    cases finite
  | zero s =>
    rw [toRat, mantissa_ofFloat_of_zero unpacked]
    simp [unpackedNumber]
  | finite s m e positive =>
    obtain ⟨sign, mantissa, exponent⟩ := ofFloat_parts unpacked
    rw [toRat, mantissa, exponent]
    cases s
    · rw [if_pos (sign.mpr rfl), unpackedNumber_negative, neg_one_mul]
    · rw [if_neg (by rw [sign]; nofun), unpackedNumber_positive, one_mul]

end Binary64

theorem packed_unpack (finite : x.isFinite = true) : Packed x.toModel.unpack := by
  have short := (Binary64.ofFloat_bounds finite).1
  obtain ⟨least, full⟩ := Binary64.ofFloat_shape x
  change x.toModel.unpack.isFinite = true at finite
  cases unpacked : x.toModel.unpack with
  | notANumber =>
    rw [unpacked] at finite
    cases finite
  | infinity s =>
    rw [unpacked] at finite
    cases finite
  | zero s => exact .zero s
  | finite s m e positive =>
    obtain ⟨_, mantissa, exponent⟩ := Binary64.ofFloat_parts unpacked
    rw [mantissa] at short full
    rw [exponent] at least full
    exact .finite short least full

/-! ## §3 The order -/

/-- Of two exponents, the greater one belongs to the greater number. -/
theorem magnitude_lt_of_exponent_lt (less : e < f) (short : m < 2 ^ 53) (least : -1074 ≤ e)
    (full : f = -1074 ∨ 2 ^ 52 ≤ n) : (m * 2 ^ e : ℚ) < n * 2 ^ f := by
  have full : 2 ^ 52 ≤ n := full.resolve_left (by omega)
  have unit : (0 : ℚ) < 2 ^ e := zpow_pos (by norm_num) e
  calc (m * 2 ^ e : ℚ) < 2 ^ 53 * 2 ^ e := by
        exact mul_lt_mul_of_pos_right (by exact_mod_cast short) unit
    _ = 2 ^ 52 * 2 ^ (e + 1) := by rw [zpow_add_one₀ (by norm_num)]; ring
    _ ≤ n * 2 ^ f := by
        refine mul_le_mul (by exact_mod_cast full) ?_ (by positivity) (by positivity)
        exact zpow_le_zpow_right₀ (by norm_num) (by omega)

/-- Magnitudes are in the order of their exponents, and at one exponent in that of their
mantissas. -/
theorem compare_magnitudes (shortm : m < 2 ^ 53) (leaste : -1074 ≤ e) (fullm : e = -1074 ∨ 2 ^ 52 ≤ m)
    (shortn : n < 2 ^ 53) (leastf : -1074 ≤ f) (fulln : f = -1074 ∨ 2 ^ 52 ≤ n) :
    (compare e f).then (compare m n) = compare (m * 2 ^ e : ℚ) (n * 2 ^ f) := by
  rcases Int.lt_trichotomy e f with less | rfl | more
  · rw [compare_lt_iff_lt.mpr less,
      compare_lt_iff_lt.mpr (magnitude_lt_of_exponent_lt less shortm leaste fulln)]
    rfl
  · have unit : (0 : ℚ) < 2 ^ e := zpow_pos (by norm_num) e
    rw [compare_eq_iff_eq.mpr rfl]
    change compare m n = _
    rcases Nat.lt_trichotomy m n with less | rfl | more
    · rw [compare_lt_iff_lt.mpr less, compare_lt_iff_lt.mpr]
      exact mul_lt_mul_of_pos_right (by exact_mod_cast less) unit
    · rw [compare_eq_iff_eq.mpr rfl, compare_eq_iff_eq.mpr rfl]
    · rw [compare_gt_iff_gt.mpr more, compare_gt_iff_gt.mpr]
      exact mul_lt_mul_of_pos_right (by exact_mod_cast more) unit
  · rw [compare_gt_iff_gt.mpr more,
      compare_gt_iff_gt.mpr (magnitude_lt_of_exponent_lt more shortn leastf fullm)]
    rfl

theorem compare_neg_neg (p q : ℚ) : compare (-p) (-q) = (compare p q).swap := by
  rcases lt_trichotomy p q with less | rfl | more
  · rw [compare_lt_iff_lt.mpr less, compare_gt_iff_gt.mpr (neg_lt_neg less)]
    rfl
  · rw [compare_eq_iff_eq.mpr rfl, compare_eq_iff_eq.mpr rfl]
    rfl
  · rw [compare_gt_iff_gt.mpr more, compare_lt_iff_lt.mpr (neg_lt_neg more)]
    rfl

/-- Unpacked doubles are in the order of their numbers. -/
theorem Packed.compare_eq (hu : Packed u) (hv : Packed v) :
    u.compare v = some (compare (unpackedNumber u) (unpackedNumber v)) := by
  cases hu with
  | zero s =>
    cases hv with
    | zero t => exact congrArg some (compare_eq_iff_eq.mpr rfl).symm
    | @finite t n f positive short least full =>
      cases t
      · exact congrArg some (compare_gt_iff_gt.mpr (unpackedNumber_lt_zero positive)).symm
      · exact congrArg some (compare_lt_iff_lt.mpr (unpackedNumber_pos positive)).symm
  | @finite s m e positive short least full =>
    cases hv with
    | zero t =>
      cases s
      · exact congrArg some (compare_lt_iff_lt.mpr (unpackedNumber_lt_zero positive)).symm
      · exact congrArg some (compare_gt_iff_gt.mpr (unpackedNumber_pos positive)).symm
    | @finite t n f positive' short' least' full' =>
      have magnitudes := compare_magnitudes short least full short' least' full'
      cases s <;> cases t
      · have opposite := congrArg Ordering.swap magnitudes
        rw [← compare_neg_neg] at opposite
        rw [unpackedNumber_negative, unpackedNumber_negative]
        exact congrArg some opposite
      · exact congrArg some (compare_lt_iff_lt.mpr
          ((unpackedNumber_lt_zero positive).trans (unpackedNumber_pos positive'))).symm
      · exact congrArg some (compare_gt_iff_gt.mpr
          ((unpackedNumber_lt_zero positive').trans (unpackedNumber_pos positive))).symm
      · rw [unpackedNumber_positive, unpackedNumber_positive]
        exact congrArg some magnitudes

/-- Finite doubles are in the order of their numbers. -/
theorem floatOrder_of_finite (hx : x.isFinite = true) (hy : y.isFinite = true) :
    floatOrder x y = some (compare (Binary64.ofFloat x).toRat (Binary64.ofFloat y).toRat) := by
  rw [floatOrder, (packed_unpack hx).compare_eq (packed_unpack hy), Binary64.toRat_ofFloat hx,
    Binary64.toRat_ofFloat hy]

theorem float_lt_iff_toRat_lt (hx : x.isFinite = true) (hy : y.isFinite = true) :
    x < y ↔ (Binary64.ofFloat x).toRat < (Binary64.ofFloat y).toRat := by
  rw [float_lt_iff, floatOrder_of_finite hx hy, Option.some.injEq, compare_lt_iff_lt]

theorem float_beq_iff_toRat_eq (hx : x.isFinite = true) (hy : y.isFinite = true) :
    (x == y) = true ↔ (Binary64.ofFloat x).toRat = (Binary64.ofFloat y).toRat := by
  rw [float_beq_iff, floatOrder_of_finite hx hy, Option.some.injEq, compare_eq_iff_eq]

end Tabletop
