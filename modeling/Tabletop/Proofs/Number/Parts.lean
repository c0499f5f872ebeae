/-
Tabletop.Proofs.Number.Parts — the exact number behind a double.

The parts of a finite double are the sign, the mantissa and the exponent that
its bits are unpacked to. They stand for a rational number, and the questions
about its fraction that the parts answer in whole numbers are answered as that
number has them.

  §1 Parts      — reading the bits in two ways.
  §2 The number — whole, and without its fraction.
-/
import Tabletop.Proofs.Number.Finite
import Tabletop.Template.Filter

namespace Tabletop

open Float.Model Float.Model.UnpackedFloat

variable {s : UnpackedFloat.Sign} {m : Nat} {e : Int} {x : Float}

namespace Binary64

/-! ## §1 Parts -/

theorem toNat_unpackMantissa (b : BitVec Format.binary64.numBits) :
    (unpackMantissa b).toNat = b.toNat % 2 ^ 52 := by
  rw [unpackMantissa_def, BitVec.extractLsb'_toNat, Nat.shiftRight_zero]

theorem toNat_unpackExponent (b : BitVec Format.binary64.numBits) :
    (unpackExponent b).toNat = b.toNat / 2 ^ 52 % 2 ^ 11 := by
  rw [unpackExponent_def, BitVec.extractLsb'_toNat, Nat.shiftRight_eq_div_pow]

theorem ofBitVec_unpackSign_eq_negative_iff (b : BitVec Format.binary64.numBits) :
    UnpackedFloat.Sign.ofBitVec (unpackSign b) = .negative ↔ 2 ^ 63 ≤ b.toNat := by
  have size : b.toNat < 2 ^ 64 := b.isLt
  have bit : (unpackSign b).toNat = b.toNat / 2 ^ 63 % 2 ^ 1 := by
    rw [unpackSign_def, BitVec.extractLsb'_toNat, Nat.shiftRight_eq_div_pow]
    rfl
  unfold UnpackedFloat.Sign.ofBitVec
  split
  · rename_i zero
    rw [zero] at bit
    change 0 = _ at bit
    refine iff_of_false nofun ?_
    omega
  · rename_i one
    refine iff_of_true rfl ?_
    have : (unpackSign b).toNat ≠ 0 := fun zero => one (BitVec.eq_of_toNat_eq zero)
    omega

/-- A double whose exponent bits are zero. -/
theorem ofFloat_of_least (least : x.toBits.toNat / 2 ^ 52 % 2 ^ 11 = 0) :
    ofFloat x = ⟨decide (2 ^ 63 ≤ x.toBits.toNat), x.toBits.toNat % 2 ^ 52, -1074, false⟩ :=
  if_pos least

/-- A double whose exponent bits are not zero. -/
theorem ofFloat_of_more (more : x.toBits.toNat / 2 ^ 52 % 2 ^ 11 ≠ 0) :
    ofFloat x = ⟨decide (2 ^ 63 ≤ x.toBits.toNat), 2 ^ 52 + x.toBits.toNat % 2 ^ 52,
      (x.toBits.toNat / 2 ^ 52 % 2 ^ 11 : Nat) - 1075,
      x.toBits.toNat % 2 ^ 52 = 0 && 1 < x.toBits.toNat / 2 ^ 52 % 2 ^ 11⟩ :=
  if_neg more

/-- The parts of a finite double are those that it is unpacked to. -/
theorem ofFloat_parts {positive : 0 < m} (h : x.toModel.unpack = .finite s m e positive) :
    ((ofFloat x).negative = true ↔ s = .negative) ∧ (ofFloat x).mantissa = m ∧
      (ofFloat x).exponent = e := by
  have mantissa := toNat_unpackMantissa x.toModel.toBits.toBitVec
  have exponent := toNat_unpackExponent x.toModel.toBits.toBitVec
  have sign := ofBitVec_unpackSign_eq_negative_iff x.toModel.toBits.toBitVec
  change _ = x.toBits.toNat % _ at mantissa
  change _ = x.toBits.toNat / _ % _ at exponent
  change _ ↔ _ ≤ x.toBits.toNat at sign
  unfold Float.Model.unpack UnpackedFloat.unpack at h
  dsimp only at h
  split at h
  · split at h <;> cases h
  · split at h
    · rename_i least
      rw [least] at exponent
      rw [ofFloat_of_least exponent.symm]
      split at h <;> cases h
      refine ⟨decide_eq_true_iff.trans sign.symm, mantissa.symm, ?_⟩
      rw [least]
      rfl
    · rename_i more
      have biased : x.toBits.toNat / 2 ^ 52 % 2 ^ 11 ≠ 0 := by
        rw [← exponent]
        exact fun zero => more (BitVec.eq_of_toNat_eq zero)
      rw [ofFloat_of_more biased]
      cases h
      refine ⟨decide_eq_true_iff.trans sign.symm, ?_, ?_⟩
      · rw [one_append_toNat, mantissa]
      · rw [exponent]
        rfl

theorem ofFloat_bounds (finite : x.isFinite = true) :
    (ofFloat x).mantissa < 2 ^ 53 ∧ (ofFloat x).exponent ≤ 971 := by
  have exponent := toNat_unpackExponent x.toModel.toBits.toBitVec
  change _ = x.toBits.toNat / _ % _ at exponent
  by_cases least : x.toBits.toNat / 2 ^ 52 % 2 ^ 11 = 0
  · rw [ofFloat_of_least least]
    refine ⟨?_, ?_⟩
    · change x.toBits.toNat % 2 ^ 52 < 2 ^ 53
      omega
    · change (-1074 : Int) ≤ 971
      decide
  · -- the greatest exponent bits are those of the infinities and NaN
    have below : x.toBits.toNat / 2 ^ 52 % 2 ^ 11 ≠ 2047 := by
      intro greatest
      have ones : @unpackExponent .binary64 x.toModel.toBits.toBitVec = -1#11 :=
        BitVec.eq_of_toNat_eq (exponent.trans greatest)
      change x.toModel.unpack.isFinite = true at finite
      unfold Float.Model.unpack UnpackedFloat.unpack at finite
      dsimp only at finite
      rw [if_pos ones] at finite
      split at finite <;> cases finite
    rw [ofFloat_of_more least]
    dsimp only
    omega

/-! ## §2 The number -/

/-- The number that the parts stand for. -/
def toRat (b : Binary64) : ℚ := (if b.negative then -1 else 1) * (b.mantissa * 2 ^ b.exponent)

variable {b : Binary64}

theorem magnitude_eq (b : Binary64) : (b.mantissa * 2 ^ b.exponent : ℚ)
    = ((b.mantissa * 2 ^ b.exponent.toNat : ℕ) : ℚ) / ((2 ^ (-b.exponent).toNat : ℕ) : ℚ) := by
  obtain ⟨k, positive | negative⟩ := Int.eq_nat_or_neg b.exponent
  · rw [positive, Int.toNat_natCast, Int.toNat_neg_natCast, pow_zero, Nat.cast_one, div_one]
    push_cast
    rw [zpow_natCast]
  · rw [negative, Int.neg_neg, Int.toNat_natCast, Int.toNat_neg_natCast, pow_zero, mul_one]
    push_cast
    rw [zpow_neg, zpow_natCast, div_eq_mul_inv]

/-- The magnitude is a whole number exactly if nothing is left over. -/
theorem magnitude_eq_intCast_iff (b : Binary64) (n : ℤ) :
    (b.mantissa * 2 ^ b.exponent : ℚ) = n ↔ b.isWhole = true ∧ (b.whole : ℤ) = n := by
  have positive : 2 ^ (-b.exponent).toNat ≠ 0 := (Nat.two_pow_pos _).ne'
  have whole : b.isWhole = true ↔ 2 ^ (-b.exponent).toNat ∣ b.mantissa * 2 ^ b.exponent.toNat :=
    decide_eq_true_iff.trans Nat.dvd_iff_mod_eq_zero.symm
  have quotient : b.whole = b.mantissa * 2 ^ b.exponent.toNat / 2 ^ (-b.exponent).toNat := rfl
  rw [magnitude_eq, whole, quotient, div_eq_iff (Nat.cast_ne_zero.mpr positive)]
  generalize b.mantissa * 2 ^ b.exponent.toNat = scaled at *
  generalize 2 ^ (-b.exponent).toNat = unit at *
  norm_cast
  constructor
  · intro exactly
    have divides : unit ∣ scaled := Int.natCast_dvd_natCast.mp (Dvd.intro_left n exactly.symm)
    exact ⟨divides, Int.ediv_eq_of_eq_mul_left (Int.natCast_ne_zero.mpr positive) exactly⟩
  · rintro ⟨divides, rfl⟩
    exact (Int.ediv_mul_cancel (Int.natCast_dvd_natCast.mpr divides)).symm

/-- The number is whole exactly if nothing is left over, and cutting it off then keeps it. -/
theorem toRat_eq_intCast_iff (b : Binary64) (n : ℤ) :
    b.toRat = n ↔ b.isWhole = true ∧ b.truncated = n := by
  unfold toRat truncated
  cases b.negative
  · rw [if_neg Bool.false_ne_true, if_neg Bool.false_ne_true, one_mul, magnitude_eq_intCast_iff]
  · rw [if_pos rfl, if_pos rfl, neg_one_mul, neg_eq_iff_eq_neg, ← Int.cast_neg,
      magnitude_eq_intCast_iff, neg_eq_iff_eq_neg]

theorem lt_growthBound_succ (k : Nat) : (2 ^ 53 - 1) * 2 ^ (k + 1) < growthBound k := by
  have positive : 0 < 2 ^ k := Nat.two_pow_pos k
  unfold growthBound
  rw [pow_succ 2 k]
  generalize 2 ^ k = unit at *
  omega

theorem natAbs_truncated (b : Binary64) : b.truncated.natAbs = b.whole := by
  unfold truncated
  split
  · rw [Int.natAbs_neg, Int.natAbs_natCast]
  · exact Int.natAbs_natCast _

theorem whole_lt_growthBound {k : Nat} (short : b.mantissa < 2 ^ 53)
    (low : b.exponent ≤ (k + 1 : Nat)) : b.whole < growthBound k :=
  calc b.whole ≤ b.mantissa * 2 ^ b.exponent.toNat := Nat.div_le_self _ _
    _ ≤ (2 ^ 53 - 1) * 2 ^ (k + 1) :=
        Nat.mul_le_mul (Nat.le_sub_one_of_lt short) (Nat.pow_le_pow_right (by decide) (by omega))
    _ < growthBound k := lt_growthBound_succ k

/-- A finite double without its fraction is below the numbers that are rounded to infinity. -/
theorem truncated_ofFloat_lt (finite : x.isFinite = true) :
    (ofFloat x).truncated.natAbs < overflowBound := by
  obtain ⟨short, low⟩ := ofFloat_bounds finite
  rw [natAbs_truncated, overflowBound_def]
  exact whole_lt_growthBound short low

theorem isWhole_of_nonneg (positive : 0 ≤ b.exponent) :
    b.isWhole = true ∧ b.whole = b.mantissa * 2 ^ b.exponent.toNat := by
  have unit : (-b.exponent).toNat = 0 := Int.toNat_of_nonpos (by omega)
  unfold isWhole leftover whole
  rw [unit]
  exact ⟨decide_eq_true (Nat.mod_one _), Nat.div_one _⟩

end Binary64

open Binary64

/-- A normal double of that exponent is a whole number of more than 63 bits. -/
theorem Normal.truncated (h : Normal s e x.toModel.unpack) (great : 11 ≤ e) :
    (ofFloat x).isWhole = true ∧ 2 ^ 63 ≤ s.apply (ofFloat x).truncated := by
  generalize unpacked : x.toModel.unpack = u at h
  cases h with
  | @intro m positive full =>
    obtain ⟨sign, mantissa, exponent⟩ := ofFloat_parts unpacked
    obtain ⟨whole, magnitude⟩ := isWhole_of_nonneg (b := ofFloat x) (by omega)
    have least : 2 ^ 63 ≤ (ofFloat x).whole := by
      rw [magnitude, mantissa, exponent]
      calc 2 ^ 63 = 2 ^ 52 * 2 ^ 11 := by decide
        _ ≤ m * 2 ^ e.toNat :=
          Nat.mul_le_mul ((Nat.log2_eq_iff positive.ne').mp full).1
            (Nat.pow_le_pow_right (by decide) (by omega))
    refine ⟨whole, ?_⟩
    have cut : s.apply (ofFloat x).truncated = (ofFloat x).whole := by
      unfold Binary64.truncated
      cases s
      · rw [if_pos (sign.mpr rfl)]
        exact Int.neg_neg _
      · rw [if_neg (by rw [sign]; nofun)]
        rfl
    rw [cut]
    exact_mod_cast least

end Tabletop
