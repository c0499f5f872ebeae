/-
Tabletop.Proofs.Number.Nearest — whole numbers as the doubles next to them.

A whole number of 64 bits becomes a double with the first 53 of its bits,
rounded at the last of them. What it becomes is off by half a unit of that
bit at most, so numbers keep their order, though some of them become equal;
and numbers that have no more than 53 bits stay as they are.

  §1 Mantissas     — what is rounded, and how far it is off.
  §2 Magnitudes    — in one order before and after rounding.
  §3 Doubles       — the numbers that they stand for.
  §4 Whole numbers — with their signs.
-/
import Tabletop.Proofs.Number.Order

namespace Tabletop

open Float.Model Float.Model.UnpackedFloat

variable {s : UnpackedFloat.Sign} {m n k : Nat} {e : Int} {u : UnpackedFloat}

/-! ## §1 Mantissas -/

/-- More than a half is rounded up. -/
theorem rounded_above_half (above : 2 ^ k < 2 * (m % 2 ^ k)) :
    (bareMantissa m >>> k).roundedMantissa = m / 2 ^ k + 1 := by
  have remains : m % 2 ^ k ≠ 0 ∧ 2 * (m % 2 ^ k) ≠ 2 ^ k := by
    have unit := Nat.two_pow_pos k
    omega
  rw [bare_shiftRight, decide_eq_true (Nat.le_of_lt above), decide_eq_true remains]
  rfl

/-- Rounding is off by half a unit at most. -/
theorem rounded_near (m k : Nat) :
    2 * m ≤ 2 * ((bareMantissa m >>> k).roundedMantissa * 2 ^ k) + 2 ^ k ∧
      2 * ((bareMantissa m >>> k).roundedMantissa * 2 ^ k) ≤ 2 * m + 2 ^ k := by
  have parts := Nat.div_add_mod' m (2 ^ k)
  have less := Nat.mod_lt m (Nat.two_pow_pos k)
  rcases Nat.lt_trichotomy (2 * (m % 2 ^ k)) (2 ^ k) with below | half | above
  · rw [rounded_below_half below]
    omega
  · have either := roundedMantissa_cases (bareMantissa m >>> k)
    rw [mantissa_bare_shiftRight] at either
    rcases Nat.le_or_eq_of_le_succ either.2 with down | up
    · rw [Nat.le_antisymm down either.1]
      omega
    · rw [up, Nat.succ_eq_add_one, Nat.add_mul (m / 2 ^ k) 1]
      omega
  · rw [rounded_above_half above, Nat.add_mul (m / 2 ^ k) 1]
    omega

/-- A number that is not longer than a mantissa is kept. -/
theorem roundedBits_of_short (short : m.log2 ≤ 52) : roundedBits m = m := by
  have nothing : m.log2 - 52 = 0 := Nat.sub_eq_zero_of_le short
  rw [roundedBits, nothing]
  rfl

/-- Zeros at the end of a number do not count. -/
theorem roundedBits_shiftLeft (long : 52 ≤ n.log2) (k : Nat) :
    roundedBits (n <<< k) = roundedBits n := by
  have positive : 0 < n := by
    refine Nat.pos_of_ne_zero fun zero => ?_
    rw [zero] at long
    exact absurd long (by decide)
  have gap : (n <<< k).log2 - 52 = n.log2 - 52 + k := by
    rw [log2_shiftLeft positive]
    omega
  have unit := Nat.two_pow_pos k
  have quotient : n <<< k / 2 ^ (n.log2 - 52 + k) = n / 2 ^ (n.log2 - 52) := by
    rw [Nat.shiftLeft_eq, Nat.pow_add, Nat.mul_div_mul_right _ _ unit]
  have remainder : n <<< k % 2 ^ (n.log2 - 52 + k) = n % 2 ^ (n.log2 - 52) * 2 ^ k := by
    rw [Nat.shiftLeft_eq, Nat.pow_add, Nat.mul_mod_mul_right]
  unfold roundedBits
  rw [gap, bare_shiftRight, bare_shiftRight, quotient, remainder, Nat.pow_add, ← Nat.mul_assoc]
  congr 2
  · exact decide_eq_decide.mpr (Nat.mul_le_mul_right_iff unit)
  · refine decide_eq_decide.mpr (and_congr ?_ ?_)
    · rw [Ne, Nat.mul_eq_zero, not_or, and_iff_left unit.ne']
    · rw [Ne, Nat.mul_left_inj unit.ne']

/-! ## §2 Magnitudes -/

/-- The number with the first 53 bits of `n`, rounded, and zeros behind them. -/
def nearestNat (n : Nat) : Nat := roundedBits n * 2 ^ (n.log2 - 52)

theorem nearestNat_of_short (short : n.log2 ≤ 52) : nearestNat n = n := by
  rw [nearestNat, roundedBits_of_short short, Nat.sub_eq_zero_of_le short, Nat.pow_zero, Nat.mul_one]

theorem nearestNat_near (n : Nat) :
    2 * n ≤ 2 * nearestNat n + 2 ^ (n.log2 - 52) ∧ 2 * nearestNat n ≤ 2 * n + 2 ^ (n.log2 - 52) :=
  rounded_near n (n.log2 - 52)

/-- Rounding does not go beyond the powers of two around a number. -/
theorem nearestNat_between (nonzero : n ≠ 0) :
    2 ^ n.log2 ≤ nearestNat n ∧ nearestNat n ≤ 2 ^ (n.log2 + 1) := by
  rcases Nat.le_total n.log2 52 with short | long
  · rw [nearestNat_of_short short]
    exact ⟨Nat.log2_self_le nonzero, Nat.le_of_lt Nat.lt_log2_self⟩
  · obtain ⟨low, high⟩ := roundedBits_cases long
    have least : 2 ^ n.log2 = 2 ^ 52 * 2 ^ (n.log2 - 52) := by
      rw [← Nat.pow_add, Nat.add_sub_cancel' long]
    have most : 2 ^ (n.log2 + 1) = 2 ^ 53 * 2 ^ (n.log2 - 52) := by
      rw [← Nat.pow_add]
      congr 1
      omega
    rw [least, most]
    exact ⟨Nat.mul_le_mul_right _ low, Nat.mul_le_mul_right _ high⟩

/-- Rounding keeps the order. At one length, half a unit up and half a unit down do not reach from one
number over to another; and between two lengths there is a power of two. -/
theorem nearestNat_mono (le : m ≤ n) : nearestNat m ≤ nearestNat n := by
  rcases Nat.eq_zero_or_pos m with rfl | positive
  · exact (nearestNat_of_short (by decide)).le.trans (Nat.zero_le _)
  have positive' : 0 < n := Nat.lt_of_lt_of_le positive le
  have logs : m.log2 ≤ n.log2 :=
    (Nat.le_log2 positive'.ne').mpr (Nat.le_trans (Nat.log2_self_le positive.ne') le)
  rcases Nat.eq_or_lt_of_le logs with same | shorter
  · obtain ⟨_, up⟩ := nearestNat_near m
    obtain ⟨down, _⟩ := nearestNat_near n
    unfold nearestNat at *
    rw [same] at up ⊢
    rcases Nat.eq_or_lt_of_le le with rfl | less
    · exact Nat.le_refl _
    · refine Nat.mul_le_mul_right _ (Nat.le_of_not_lt fun above => ?_)
      have apart : (roundedBits n + 1) * 2 ^ (n.log2 - 52) ≤ roundedBits m * 2 ^ (n.log2 - 52) :=
        Nat.mul_le_mul_right _ above
      rw [Nat.add_mul (roundedBits n) 1] at apart
      omega
  · calc nearestNat m ≤ 2 ^ (m.log2 + 1) := (nearestNat_between positive.ne').2
      _ ≤ 2 ^ n.log2 := Nat.pow_le_pow_right (by decide) shorter
      _ ≤ nearestNat n := (nearestNat_between positive'.ne').1

/-- Numbers up to 2^53 are kept. -/
theorem nearestNat_eq_self (small : n ≤ 2 ^ 53) : nearestNat n = n := by
  rcases Nat.eq_or_lt_of_le small with rfl | less
  · have shifted : 2 ^ 53 = 2 ^ 52 <<< 1 := by decide
    rw [nearestNat, Nat.log2_two_pow, shifted, roundedBits_shiftLeft (by rw [Nat.log2_two_pow]),
      roundedBits_of_short (by rw [Nat.log2_two_pow])]
    decide
  · refine nearestNat_of_short ?_
    rcases Nat.eq_zero_or_pos n with rfl | positive
    · decide
    · exact Nat.le_of_lt_succ ((Nat.log2_lt positive.ne').mpr less)

/-! ## §3 Doubles -/

/-- What is rounded stands for its rounded mantissa. -/
theorem number_roundWithAccuracy (full : 52 ≤ m.log2) (inRange : -1022 ≤ m.log2 + e) :
    unpackedNumber (roundWithAccuracy .binary64 .positive m e .exact)
      = roundedBits m * 2 ^ (m.log2 + e - 52) := by
  obtain ⟨low, high⟩ := roundedBits_cases full
  rcases Nat.lt_or_eq_of_le high with kept | grown
  · have bits : (roundedBits m).log2 = 52 := log2_eq_of_lt low kept
    have gap : (Format.binary64.targetExponent (totalExponent (roundedBits m) (m.log2 + e - 52))
        - (m.log2 + e - 52)).toNat = 0 := by
      rw [targetExponent_binary64, bits]
      omega
    rw [roundWithAccuracy_eq (firstShift full inRange) (shiftToTargetExponent_exact gap)
      (Nat.lt_of_lt_of_le (by decide) low), unpackedNumber_positive]
    dsimp only
    rw [Int.natCast_zero, Int.add_zero]
    rfl
  · have gap : (Format.binary64.targetExponent (totalExponent (roundedBits m) (m.log2 + e - 52))
        - (m.log2 + e - 52)).toNat = 1 := by
      rw [targetExponent_binary64, grown, Nat.log2_two_pow]
      omega
    have half : (bareMantissa (roundedBits m) >>> 1).mantissa = 2 ^ 52 := by
      rw [bare_shiftRight, grown, Nat.pow_succ, Nat.pow_one, Nat.mul_div_cancel _ (by decide)]
    rw [roundWithAccuracy_eq (firstShift full inRange) (shiftToTargetExponent_exact gap)
      (Nat.lt_of_lt_of_eq (by decide) half.symm), unpackedNumber_positive]
    change ((bareMantissa (roundedBits m) >>> 1).mantissa * 2 ^ (m.log2 + e - 52 + (1 : Nat)) : ℚ) = _
    rw [half, grown, Int.natCast_one, zpow_add_one₀ (by norm_num)]
    push_cast
    ring

/-- A number that is not longer than a mantissa is kept in rounding. -/
theorem number_round (positive : 0 < m) (short : m.log2 ≤ 52) (inRange : -1022 ≤ m.log2 + e) :
    unpackedNumber (UnpackedFloat.round .binary64 .positive m e) = m * 2 ^ e := by
  have gap : (e - Format.binary64.targetExponent (totalExponent m e)).toNat = 52 - m.log2 := by
    rw [targetExponent_binary64]
    omega
  have bits : (m <<< (52 - m.log2)).log2 = 52 := by
    rw [log2_shiftLeft positive]
    omega
  have same : UnpackedFloat.round .binary64 .positive m e = roundWithAccuracy .binary64 .positive
      (m <<< (52 - m.log2)) (e - (52 - m.log2 : Nat)) .exact := by
    rw [← gap]
    rfl
  rw [same, number_roundWithAccuracy (by rw [bits]) (by rw [bits]; omega),
    roundedBits_of_short (by rw [bits]), bits, Nat.shiftLeft_eq]
  push_cast
  rw [mul_assoc, ← zpow_natCast, ← zpow_add₀ (by norm_num)]
  congr 2
  ring

theorem unpack_one : (Float.exactlyRepresentablePowersOfTen[0]).toModel.unpack
    = .finite .positive (2 ^ 52) (-52) (by decide) := rfl

/-- A normal number times one is the number. -/
theorem number_mul_one (h : Normal .positive e u) (inRange : -1074 ≤ e) :
    unpackedNumber (UnpackedFloat.mul .binary64 u
      (Float.exactlyRepresentablePowersOfTen[0]).toModel.unpack) = unpackedNumber u := by
  cases h with
  | @intro m positive full =>
    have bits : (m * 2 ^ 52).log2 = 104 := by
      rw [← Nat.shiftLeft_eq, log2_shiftLeft positive, full]
    have kept : roundedBits (m * 2 ^ 52) = m := by
      rw [← Nat.shiftLeft_eq, roundedBits_shiftLeft full.ge, roundedBits_of_short full.le]
    rw [unpack_one, unpackedNumber_positive]
    change unpackedNumber (roundWithAccuracy .binary64 .positive (m * 2 ^ 52) (e + -52) .exact) = _
    rw [number_roundWithAccuracy (by rw [bits]; decide) (by rw [bits]; omega), kept, bits]
    congr 2
    push_cast
    ring

/-- A whole number becomes the nearest one that has a mantissa. -/
theorem number_ofNat (word : n < wordBound) :
    unpackedNumber (Float.ofNat n).toModel.unpack = nearestNat n := by
  unfold wordBound at word
  rcases Nat.eq_zero_or_pos n with rfl | positive
  · rw [nearestNat_of_short (by decide)]
    exact Nat.cast_zero.symm
  have size : n.log2 < 64 := (Nat.log2_lt positive.ne').mpr word
  by_cases short : n < 2 ^ 53
  · have small : n.log2 < 53 := (Nat.log2_lt positive.ne').mpr short
    obtain ⟨e, low, high, normal⟩ := exists_normal_of_round (s := .positive) (e := 0) positive
      (by omega)
    obtain ⟨g, least, most, product⟩ := normal.mul normal_one (by omega)
    rw [toModel_ofNat_of_short short, normal.unpack_pack (by omega) (by omega),
      product.unpack_pack (by omega) (by omega), number_mul_one normal (by omega),
      number_round positive (by omega) (by omega), zpow_zero, mul_one,
      nearestNat_of_short (by omega)]
  · have long : 2 ^ 53 ≤ n := Nat.le_of_not_lt short
    have least : 53 ≤ n.log2 := (Nat.le_log2 positive.ne').mpr long
    have bits := log2_shiftLeft positive 53
    obtain ⟨e, low, high, normal⟩ := exists_normal_round (s := .positive) (m := n <<< 53) (e := -53)
      (by omega) (by omega)
    have zeros : ((n.log2 + 53 : Nat) : Int) + -53 - 52 = (n.log2 - 52 : Nat) := by omega
    rw [toModel_ofNat_of_long long, normal.unpack_pack (by omega) (by omega),
      number_roundWithAccuracy (by omega) (by omega), roundedBits_shiftLeft (by omega), bits, zeros,
      zpow_natCast, nearestNat, Nat.cast_mul, Nat.cast_pow, Nat.cast_ofNat]

/-! ## §4 Whole numbers -/

/-- The number that a whole number becomes as a double. -/
def rounded (z : Int) : ℚ := (Binary64.ofFloat (Float.ofInt z)).toRat

/-- The nearest whole number that has a mantissa; its sign is kept. -/
def nearestInt : Int → Int
  | .ofNat n => nearestNat n
  | .negSucc n => -(nearestNat (n + 1) : Int)

theorem rounded_eq {z : Int} (word : z.natAbs < wordBound) : rounded z = nearestInt z := by
  have finite : (Float.ofInt z).isFinite = true := (modest_ofInt word).isFinite
  rw [rounded, Binary64.toRat_ofFloat finite]
  cases z with
  | ofNat n => exact (number_ofNat word).trans (Int.cast_natCast _).symm
  | negSucc n =>
    have number : unpackedNumber (Float.ofNat (n + 1)).toModel.unpack = nearestNat (n + 1) :=
      number_ofNat word
    have modest : Modest (Float.ofNat (n + 1)).toModel.unpack := modest_ofInt (n := (n + 1 : Nat)) word
    have opposite : (Float.ofInt (.negSucc n)).toModel.unpack
        = (Float.ofNat (n + 1)).toModel.unpack.neg := modest.neg.unpack_pack
    rw [opposite, unpackedNumber_neg, number, nearestInt, Int.cast_neg, Int.cast_natCast]

theorem nearestInt_mono {y z : Int} (le : y ≤ z) : nearestInt y ≤ nearestInt z := by
  have nonneg : ∀ n : Nat, 0 ≤ (nearestNat n : Int) := fun n => Int.natCast_nonneg _
  cases y with
  | ofNat m =>
    cases z with
    | ofNat n => exact Int.ofNat_le.mpr (nearestNat_mono (Int.ofNat_le.mp le))
    | negSucc n =>
      exact absurd le (Int.not_le.mpr (Int.lt_of_lt_of_le (Int.negSucc_lt_zero n)
        (Int.natCast_nonneg m)))
  | negSucc m =>
    cases z with
    | ofNat n => exact Int.le_trans (Int.neg_nonpos_of_nonneg (nonneg _)) (nonneg n)
    | negSucc n =>
      refine Int.neg_le_neg (Int.ofNat_le.mpr (nearestNat_mono ?_))
      rw [Int.negSucc_eq, Int.negSucc_eq] at le
      omega

theorem nearestInt_eq_self {z : Int} (small : z.natAbs ≤ 2 ^ 53) : nearestInt z = z := by
  cases z with
  | ofNat n => exact congrArg Int.ofNat (nearestNat_eq_self small)
  | negSucc n =>
    rw [nearestInt, nearestNat_eq_self (n := n + 1) small, Int.negSucc_eq]
    rfl

/-- The unit of the last bit is 1024 at most, as long as a magnitude is below 2^63. -/
theorem nearestNat_within (word : n ≤ 2 ^ 63) : n ≤ nearestNat n + 512 ∧ nearestNat n ≤ n + 512 := by
  rcases Nat.eq_or_lt_of_le word with rfl | less
  · have shifted : 2 ^ 63 = 2 ^ 52 <<< 11 := by decide
    have kept : nearestNat (2 ^ 63) = 2 ^ 63 := by
      rw [nearestNat, Nat.log2_two_pow, shifted, roundedBits_shiftLeft (by rw [Nat.log2_two_pow]),
        roundedBits_of_short (by rw [Nat.log2_two_pow])]
      decide
    omega
  · have unit : 2 ^ (n.log2 - 52) ≤ 2 ^ 10 := by
      refine Nat.pow_le_pow_right (by decide) ?_
      rcases Nat.eq_zero_or_pos n with rfl | positive
      · decide
      · have size := (Nat.log2_lt positive.ne').mpr less
        omega
    have near := nearestNat_near n
    omega

theorem nearestInt_within {z : Int} (word : z.natAbs ≤ 2 ^ 63) :
    z ≤ nearestInt z + 512 ∧ nearestInt z ≤ z + 512 := by
  cases z with
  | ofNat n =>
    have near := nearestNat_within (n := n) word
    change (n : Int) ≤ nearestNat n + 512 ∧ (nearestNat n : Int) ≤ n + 512
    omega
  | negSucc n =>
    have near := nearestNat_within (n := n + 1) word
    rw [nearestInt, Int.negSucc_eq]
    omega

section Words

variable {y z : Int} (hy : y.natAbs < wordBound) (hz : z.natAbs < wordBound)
include hy hz

theorem rounded_mono (le : y ≤ z) : rounded y ≤ rounded z := by
  rw [rounded_eq hy, rounded_eq hz]
  exact_mod_cast nearestInt_mono le

theorem ofInt_beq_ofInt_iff : (Float.ofInt y == Float.ofInt z) = true ↔ rounded y = rounded z :=
  float_beq_iff_toRat_eq (modest_ofInt hy).isFinite (modest_ofInt hz).isFinite

/-- A number of at most 53 bits has a double of its own: no whole number beyond it has the same. -/
theorem eq_of_rounded_eq (small : y.natAbs < 2 ^ 53) (same : rounded y = rounded z) : y = z := by
  rw [rounded_eq hy, rounded_eq hz, Int.cast_inj, nearestInt_eq_self (by omega)] at same
  rcases Int.lt_trichotomy y z with less | rfl | more
  · have next := nearestInt_mono (Int.add_one_le_of_lt less)
    rw [nearestInt_eq_self (by omega), ← same] at next
    omega
  · rfl
  · have next := nearestInt_mono (Int.le_sub_one_of_lt more)
    rw [nearestInt_eq_self (z := y - 1) (by omega), ← same] at next
    omega

end Words

end Tabletop
