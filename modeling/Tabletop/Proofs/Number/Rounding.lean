/-
Tabletop.Proofs.Number.Rounding — how whole numbers and products are rounded.

A mantissa is shifted to 53 bits, and two bits say of what is shifted out
whether it is nothing, less than a half, a half or more. Rounding looks at
those, and where it makes the mantissa grow by a bit, a second shift moves
that bit into the exponent. So what comes out has 53 bits again, at the
exponent of the number or one above, and it is infinite exactly from the
middle between the greatest double and the next power of two on.

  §1 Shifting       — the quotient, and its two bits as a comparison with one half.
  §2 Normal numbers — the shape of what is rounded, with and without a carry.
  §3 Packing        — what the 64 bits keep.
  §4 Whole numbers  — short ones by a product, long ones from their digits.
  §5 Overflow       — where the infinities begin.
-/
import Tabletop.Number.Reading
import Tabletop.Number.Binary64
import Mathlib

namespace Tabletop

open Float.Model Float.Model.UnpackedFloat

variable {s : UnpackedFloat.Sign} {m n : Nat} {e : Int}

/-! ## §1 Shifting -/

/-- A mantissa with nothing behind it. -/
abbrev bareMantissa (m : Nat) : ExtendedMantissa := ⟨m, false, false⟩

theorem shiftRight_succ (em : ExtendedMantissa) (n : Nat) :
    em >>> (n + 1) = (em >>> n).shiftRightOne := rfl

/-- A shift keeps the quotient; its two bits say where the remainder is, compared with one half. -/
theorem bare_shiftRight (m n : Nat) :
    bareMantissa m >>> n = ⟨m / 2 ^ n, decide (2 ^ n ≤ 2 * (m % 2 ^ n)),
      decide (m % 2 ^ n ≠ 0 ∧ 2 * (m % 2 ^ n) ≠ 2 ^ n)⟩ := by
  induction n with
  | zero =>
    rw [Nat.pow_zero, Nat.div_one, Nat.mod_one]
    rfl
  | succ n ih =>
    have quotient : m / 2 ^ (n + 1) = m / 2 ^ n / 2 := by
      rw [Nat.pow_succ, Nat.div_div_eq_div_mul]
    have remainder : m % 2 ^ (n + 1) = m % 2 ^ n + 2 ^ n * (m / 2 ^ n % 2) := by
      rw [Nat.pow_succ, Nat.mod_mul]
    have less := Nat.mod_lt m (Nat.two_pow_pos n)
    rw [shiftRight_succ, ih, ExtendedMantissa.shiftRightOne, quotient, remainder, Nat.pow_succ]
    -- the bit that is shifted out decides on which side of the new half the remainder is
    rcases Nat.mod_two_eq_zero_or_one (m / 2 ^ n) with out | out
    · rw [out, Nat.mul_zero, Nat.add_zero]
      congr 1
      · exact (decide_eq_false (by omega)).symm
      · rw [← Bool.decide_or]
        exact decide_eq_decide.mpr (by omega)
    · rw [out, Nat.mul_one]
      congr 1
      · exact (decide_eq_true (by omega)).symm
      · rw [← Bool.decide_or]
        exact decide_eq_decide.mpr (by omega)

theorem mantissa_bare_shiftRight (m n : Nat) : (bareMantissa m >>> n).mantissa = m / 2 ^ n := by
  rw [bare_shiftRight]

theorem roundedMantissa_cases (em : ExtendedMantissa) :
    em.mantissa ≤ em.roundedMantissa ∧ em.roundedMantissa ≤ em.mantissa + 1 := by
  obtain ⟨m, round, sticky⟩ := em
  have parity := Nat.mod_lt m (by decide : 0 < 2)
  cases round <;> cases sticky
  · exact ⟨Nat.le_refl m, Nat.le_succ m⟩
  · exact ⟨Nat.le_refl m, Nat.le_succ m⟩
  · change m ≤ m + m % 2 ∧ m + m % 2 ≤ m + 1
    omega
  · exact ⟨Nat.le_succ m, Nat.le_refl _⟩

/-- Less than a half is rounded down. -/
theorem rounded_below_half (below : 2 * (m % 2 ^ n) < 2 ^ n) :
    (bareMantissa m >>> n).roundedMantissa = m / 2 ^ n := by
  rw [bare_shiftRight, decide_eq_false (Nat.not_le.mpr below)]
  cases decide (m % 2 ^ n ≠ 0 ∧ 2 * (m % 2 ^ n) ≠ 2 ^ n) <;> rfl

/-- From a half on an odd mantissa is rounded up. -/
theorem rounded_from_half (half : 2 ^ n ≤ 2 * (m % 2 ^ n)) (odd : m / 2 ^ n % 2 = 1) :
    (bareMantissa m >>> n).roundedMantissa = m / 2 ^ n + 1 := by
  rw [bare_shiftRight, decide_eq_true half]
  cases decide (m % 2 ^ n ≠ 0 ∧ 2 * (m % 2 ^ n) ≠ 2 ^ n)
  · change m / 2 ^ n + m / 2 ^ n % 2 = m / 2 ^ n + 1
    rw [odd]
  · rfl

/-! ## §2 Normal numbers -/

/-- A number with the full 53 bits of a mantissa. -/
inductive Normal (s : UnpackedFloat.Sign) (e : Int) : UnpackedFloat → Prop
  | intro {m : Nat} {positive : 0 < m} (full : m.log2 = 52) : Normal s e (.finite s m e positive)

theorem Normal.of_eq {f : Int} {positive : 0 < m} (full : m.log2 = 52) (same : f = e) :
    Normal s e (.finite s m f positive) := by
  subst same
  exact .intro full

theorem log2_eq_of_lt (low : 2 ^ n ≤ m) (high : m < 2 ^ (n + 1)) : m.log2 = n := by
  have nonzero : m ≠ 0 := Nat.ne_of_gt (Nat.lt_of_lt_of_le (Nat.two_pow_pos n) low)
  exact (Nat.log2_eq_iff nonzero).mpr ⟨low, high⟩

/-- The mantissa that rounding gives to `m`, before a carry is taken care of. -/
def roundedBits (m : Nat) : Nat := (bareMantissa m >>> (m.log2 - 52)).roundedMantissa

theorem shifted_bits (full : 52 ≤ m.log2) :
    2 ^ 52 ≤ m / 2 ^ (m.log2 - 52) ∧ m / 2 ^ (m.log2 - 52) < 2 ^ 53 := by
  have nonzero : m ≠ 0 := by
    rintro rfl
    exact absurd full (by decide)
  have low := Nat.log2_self_le nonzero
  have high := Nat.lt_log2_self (n := m)
  rw [Nat.le_div_iff_mul_le (Nat.two_pow_pos _), Nat.div_lt_iff_lt_mul (Nat.two_pow_pos _),
    ← Nat.pow_add, ← Nat.pow_add, Nat.add_sub_cancel' full,
    show 53 + (m.log2 - 52) = m.log2 + 1 by omega]
  exact ⟨low, high⟩

theorem roundedBits_cases (full : 52 ≤ m.log2) :
    2 ^ 52 ≤ roundedBits m ∧ roundedBits m ≤ 2 ^ 53 := by
  have bounds := roundedMantissa_cases (bareMantissa m >>> (m.log2 - 52))
  obtain ⟨low, high⟩ := shifted_bits full
  rw [mantissa_bare_shiftRight] at bounds
  exact ⟨Nat.le_trans low bounds.1, Nat.le_trans bounds.2 high⟩

theorem shiftToTargetExponent_exact {k : Nat}
    (gap : (Format.binary64.targetExponent (totalExponent m e) - e).toNat = k) :
    shiftToTargetExponent .binary64 m e .exact = (bareMantissa m >>> k, e + k) := by
  subst gap
  rfl

theorem roundWithAccuracy_eq {a : Accuracy} {first second : ExtendedMantissa × Int}
    (shifted : shiftToTargetExponent .binary64 m e a = first)
    (carried : shiftToTargetExponent .binary64 first.1.roundedMantissa first.2 .exact = second)
    (positive : 0 < second.1.mantissa) :
    roundWithAccuracy .binary64 s m e a = .finite s second.1.mantissa second.2 positive := by
  subst shifted carried
  exact dif_neg (Nat.ne_of_gt positive)

theorem targetExponent_binary64 (m : Nat) (e : Int) :
    Format.binary64.targetExponent (totalExponent m e) = max (m.log2 + 1 + e - 53) (-1074) := rfl

section Rounding

variable (full : 52 ≤ m.log2) (inRange : -1022 ≤ m.log2 + e)
include full inRange

theorem firstShift :
    shiftToTargetExponent .binary64 m e .exact
      = (bareMantissa m >>> (m.log2 - 52), m.log2 + e - 52) := by
  have gap : (Format.binary64.targetExponent (totalExponent m e) - e).toNat = m.log2 - 52 := by
    rw [targetExponent_binary64]
    omega
  rw [shiftToTargetExponent_exact gap]
  congr 1
  omega

/-- Where the mantissa keeps its length, the number is rounded at its last bit. -/
theorem normal_of_no_carry (kept : roundedBits m < 2 ^ 53) :
    Normal s (m.log2 + e - 52) (roundWithAccuracy .binary64 s m e .exact) := by
  obtain ⟨low, _⟩ := roundedBits_cases full
  have bits : (roundedBits m).log2 = 52 := log2_eq_of_lt low kept
  have gap : (Format.binary64.targetExponent (totalExponent (roundedBits m) (m.log2 + e - 52))
      - (m.log2 + e - 52)).toNat = 0 := by
    rw [targetExponent_binary64, bits]
    omega
  rw [roundWithAccuracy_eq (firstShift full inRange) (shiftToTargetExponent_exact gap)
    (Nat.lt_of_lt_of_le (by decide) low)]
  exact .of_eq bits (Int.add_zero _)

/-- Where the mantissa grows by a bit, the exponent takes it. -/
theorem normal_of_carry (grown : roundedBits m = 2 ^ 53) :
    Normal s (m.log2 + e - 51) (roundWithAccuracy .binary64 s m e .exact) := by
  have gap : (Format.binary64.targetExponent (totalExponent (roundedBits m) (m.log2 + e - 52))
      - (m.log2 + e - 52)).toNat = 1 := by
    rw [targetExponent_binary64, grown, Nat.log2_two_pow]
    omega
  have half : (bareMantissa (roundedBits m) >>> 1).mantissa = 2 ^ 52 := by
    rw [bare_shiftRight, grown, Nat.pow_succ, Nat.pow_one, Nat.mul_div_cancel _ (by decide)]
  have bits : (bareMantissa (roundedBits m) >>> 1).mantissa.log2 = 52 := by
    rw [half, Nat.log2_two_pow]
  rw [roundWithAccuracy_eq (firstShift full inRange) (shiftToTargetExponent_exact gap)
    (Nat.lt_of_lt_of_eq (by decide) half.symm)]
  exact .of_eq bits (by omega)

/-- Rounding gives a normal number, at the exponent of the number or one above. -/
theorem exists_normal_round :
    ∃ f, m.log2 + e - 52 ≤ f ∧ f ≤ m.log2 + e - 51 ∧
      Normal s f (roundWithAccuracy .binary64 s m e .exact) := by
  rcases Nat.lt_or_eq_of_le (roundedBits_cases full).2 with kept | grown
  · exact ⟨_, Int.le_refl _, by omega, normal_of_no_carry full inRange kept⟩
  · exact ⟨_, by omega, Int.le_refl _, normal_of_carry full inRange grown⟩

end Rounding

/-- The mantissa grows exactly if the number is within half a unit of the next power of two. -/
theorem carries_iff (longer : 53 ≤ m.log2) :
    roundedBits m = 2 ^ 53 ↔ 2 ^ (m.log2 + 1) ≤ m + 2 ^ (m.log2 - 53) := by
  obtain ⟨low, high⟩ := shifted_bits (Nat.le_of_succ_le longer)
  have parts := Nat.div_add_mod m (2 ^ (m.log2 - 52))
  have unit : 2 ^ (m.log2 - 52) = 2 * 2 ^ (m.log2 - 53) := by
    rw [show m.log2 - 52 = m.log2 - 53 + 1 by omega, Nat.pow_succ, Nat.mul_comm]
  have power : 2 ^ (m.log2 + 1) = 2 ^ 53 * 2 ^ (m.log2 - 52) := by
    rw [← Nat.pow_add]
    congr 1
    omega
  have less := Nat.mod_lt m (Nat.two_pow_pos (m.log2 - 52))
  rcases Nat.lt_or_eq_of_le (Nat.le_sub_one_of_lt high) with short | longest
  · have small : roundedBits m ≤ m / 2 ^ (m.log2 - 52) + 1 := by
      have bounds := (roundedMantissa_cases (bareMantissa m >>> (m.log2 - 52))).2
      rwa [mantissa_bare_shiftRight] at bounds
    have room := Nat.mul_le_mul_left (2 ^ (m.log2 - 52)) (Nat.le_sub_one_of_lt short)
    omega
  · rw [longest] at parts
    rw [power, unit]
    by_cases half : 2 ^ (m.log2 - 52) ≤ 2 * (m % 2 ^ (m.log2 - 52))
    · have rounded := rounded_from_half half (longest ▸ rfl)
      rw [longest] at rounded
      exact iff_of_true rounded (by omega)
    · have rounded := rounded_below_half (Nat.not_le.mp half)
      rw [longest] at rounded
      refine iff_of_false (fun grown => ?_) (by omega)
      exact absurd (rounded.symm.trans grown) (by decide)

/-! ## §3 Packing -/

/-- The first bit of a mantissa is not packed. -/
theorem one_append_toNat (b : BitVec 52) : (1#1 ++ b).toNat = 2 ^ 52 + b.toNat := by
  rw [BitVec.toNat_append, ← Nat.shiftLeft_add_eq_or_of_lt (BitVec.isLt _)]
  rfl

theorem one_append_ofNat_toNat (full : m.log2 = 52) : (1#1 ++ BitVec.ofNat 52 m).toNat = m := by
  have nonzero : m ≠ 0 := by
    rintro rfl
    cases full
  obtain ⟨low, high⟩ := (Nat.log2_eq_iff nonzero).mp full
  rw [one_append_toNat, BitVec.toNat_ofNat]
  omega

/-- A normal number is what its packing holds, as long as the exponent is in range. -/
theorem Normal.unpack_pack {u : UnpackedFloat} (h : Normal s e u) (low : -1074 ≤ e)
    (high : e ≤ 971) : (pack u).unpack = u := by
  cases h with
  | @intro m positive full =>
    have exponent : (BitVec.ofNat 11 (e + 1023 + 52).toNat).toNat = (e + 1023 + 52).toNat := by
      rw [BitVec.toNat_ofNat, Nat.mod_eq_of_lt (by omega)]
    have below : BitVec.ofNat 11 (e + 1023 + 52).toNat ≠ -1#11 := by
      intro ones
      rw [ones] at exponent
      change 2047 = _ at exponent
      omega
    have above : BitVec.ofNat 11 (e + 1023 + 52).toNat ≠ 0#11 := by
      intro zeros
      rw [zeros] at exponent
      change 0 = _ at exponent
      omega
    change UnpackedFloat.unpack .binary64 (if 2 ^ 11 ≤ (e + 1023 + 52).toNat + 1 then _ else
      if m.log2 + 1 = 53 then packComponents .binary64 s (BitVec.ofNat 11 (e + 1023 + 52).toNat)
        (BitVec.ofNat 52 m) else _) = _
    rw [if_neg (by omega), if_pos (by omega)]
    unfold UnpackedFloat.unpack
    simp only [unpackMantissa_packComponents, unpackExponent_packComponents,
      unpackSign_packComponents, UnpackedFloat.Sign.ofBitVec_toBitVec]
    rw [if_neg below, if_neg above]
    simp only [one_append_ofNat_toNat full, exponent]
    congr 1
    change ((e + 1023 + 52).toNat : Int) - (1023 + 52) = e
    omega

/-- A normal number whose exponent is too great is packed as infinity. -/
theorem Normal.pack_of_great {u : UnpackedFloat} (h : Normal s e u) (great : 972 ≤ e) :
    Float.Model.pack u = Float.Model.pack (.infinity s) := by
  cases h with
  | @intro m positive full =>
    have packed : UnpackedFloat.pack .binary64 (.finite s m e positive)
        = packedInfinity .binary64 s := by
      change (if 2 ^ 11 ≤ (e + 1023 + 52).toNat + 1 then packedInfinity .binary64 s else _) = _
      exact if_pos (by omega)
    unfold Float.Model.pack
    simp only [packed]
    rfl

/-! ## §4 Whole numbers -/

theorem log2_shiftLeft (positive : 0 < m) (k : Nat) : (m <<< k).log2 = m.log2 + k := by
  have nonzero := Nat.ne_of_gt positive
  rw [Nat.shiftLeft_eq]
  refine log2_eq_of_lt ?_ ?_
  · rw [Nat.pow_add]
    exact Nat.mul_le_mul_right _ (Nat.log2_self_le nonzero)
  · rw [Nat.add_right_comm, Nat.pow_add]
    exact Nat.mul_lt_mul_of_pos_right Nat.lt_log2_self (Nat.two_pow_pos k)

/-- A number is rounded to a normal one, whether it is long or short. -/
theorem exists_normal_of_round (positive : 0 < m) (inRange : -1022 ≤ m.log2 + e) :
    ∃ f, m.log2 + e - 52 ≤ f ∧ f ≤ m.log2 + e - 51 ∧
      Normal s f (UnpackedFloat.round .binary64 s m e) := by
  have gap : (e - Format.binary64.targetExponent (totalExponent m e)).toNat = 52 - m.log2 := by
    rw [targetExponent_binary64]
    omega
  have bits := log2_shiftLeft positive (52 - m.log2)
  have same : UnpackedFloat.round .binary64 s m e
      = roundWithAccuracy .binary64 s (m <<< (52 - m.log2)) (e - (52 - m.log2 : Nat)) .exact := by
    rw [← gap]
    rfl
  obtain ⟨f, low, high, normal⟩ := exists_normal_round (s := s) (m := m <<< (52 - m.log2))
    (e := e - (52 - m.log2 : Nat)) (by omega) (by omega)
  refine ⟨f, by omega, by omega, ?_⟩
  rw [same]
  exact normal

/-- The product of normal numbers is normal, as long as it is in range. -/
theorem Normal.mul {t : UnpackedFloat.Sign} {f : Int} {u v : UnpackedFloat} (hu : Normal s e u)
    (hv : Normal t f v) (inRange : -1126 ≤ e + f) :
    ∃ g, e + f + 52 ≤ g ∧ g ≤ e + f + 54 ∧ Normal (s * t) g (UnpackedFloat.mul .binary64 u v) := by
  cases hu with
  | @intro m positive full =>
    cases hv with
    | @intro n positive' full' =>
      have lowm := (Nat.log2_eq_iff (Nat.ne_of_gt positive)).mp full
      have lown := (Nat.log2_eq_iff (Nat.ne_of_gt positive')).mp full'
      have product : 0 < m * n := Nat.mul_pos positive positive'
      have least : 104 ≤ (m * n).log2 := by
        rw [Nat.le_log2 (Nat.ne_of_gt product)]
        calc 2 ^ 104 = 2 ^ 52 * 2 ^ 52 := by decide
          _ ≤ m * n := Nat.mul_le_mul lowm.1 lown.1
      have most : (m * n).log2 < 106 := by
        rw [Nat.log2_lt (Nat.ne_of_gt product)]
        calc m * n < 2 ^ 53 * 2 ^ 53 := Nat.mul_lt_mul'' lowm.2 lown.2
          _ = 2 ^ 106 := by decide
      obtain ⟨g, low, high, normal⟩ := exists_normal_round (s := s * t) (m := m * n) (e := e + f)
        (by omega) (by omega)
      exact ⟨g, by omega, by omega, normal⟩

theorem normal_one :
    Normal .positive (-52) (Float.exactlyRepresentablePowersOfTen[0]).toModel.unpack := by
  have positive : 0 < 2 ^ 52 := by decide
  exact @Normal.of_eq _ _ _ _ positive Nat.log2_two_pow rfl

/-- A whole number of more than 53 bits is rounded in one step. -/
theorem toModel_ofNat_of_long (long : 2 ^ 53 ≤ n) :
    (Float.ofNat n).toModel
      = pack (roundWithAccuracy .binary64 .positive (n <<< 53) (-53) .exact) := by
  have nonzero : n ≠ 0 := by omega
  have least : ¬ (0 : Int) < -((2 : Int) ^ 11 + n.log2) := by omega
  have digits : UnpackedFloat.ofScientific .binary64 n 0
      = roundWithAccuracy .binary64 .positive (n <<< 53 * 10 ^ 0) (-53 + 0) .exact := by
    unfold UnpackedFloat.ofScientific
    rw [dif_neg nonzero, if_neg (by decide), if_neg least, if_pos (by decide)]
    rfl
  change (Float.ofScientific n false 0).toModel = _
  unfold Float.ofScientific
  rw [dif_neg (by omega)]
  change pack (UnpackedFloat.ofScientific .binary64 n 0) = _
  rw [digits, Nat.pow_zero, Nat.mul_one, Int.add_zero]

/-- A whole number of at most 53 bits is rounded, and multiplied by one. -/
theorem toModel_ofNat_of_short (short : n < 2 ^ 53) :
    (Float.ofNat n).toModel = pack (UnpackedFloat.mul .binary64
      (pack (UnpackedFloat.round .binary64 .positive n 0)).unpack
      (Float.exactlyRepresentablePowersOfTen[0]).toModel.unpack) := by
  have word : n.toUInt64.toNat = n := by
    rw [Nat.toUInt64, UInt64.toNat_ofNat']
    exact Nat.mod_eq_of_lt (Nat.lt_trans short (by decide))
  have factor : (Float.Model.ofUInt64 n.toUInt64)
      = pack (UnpackedFloat.round .binary64 .positive n 0) := by
    change pack (normalize .binary64 (n.toUInt64.toNat : Int) 0 .positive) = _
    rw [word, UnpackedFloat.normalize]
    rcases Nat.eq_zero_or_pos n with rfl | positive
    · rfl
    · have more : compare (n : Int) 0 = .gt := by
        rw [Int.compare_eq_gt]
        omega
      rw [more]
      rfl
  change (Float.ofScientific n false 0).toModel = _
  unfold Float.ofScientific
  rw [dif_pos ⟨short, by decide⟩]
  change pack (UnpackedFloat.mul .binary64 (Float.Model.ofUInt64 n.toUInt64).unpack _) = _
  rw [factor]

/-- A whole number is rounded to a normal one near its own length. -/
theorem exists_normal_ofNat (positive : 0 < n) (inRange : n.log2 ≤ 1020) :
    ∃ e, (n.log2 : Int) - 52 ≤ e ∧ e ≤ n.log2 - 49 ∧
      Normal .positive e (Float.ofNat n).toModel.unpack := by
  by_cases short : n < 2 ^ 53
  · have small : n.log2 < 53 := (Nat.log2_lt (Nat.ne_of_gt positive)).mpr short
    obtain ⟨e, low, high, normal⟩ := exists_normal_of_round (s := .positive) (e := 0) positive
      (by omega)
    obtain ⟨g, least, most, product⟩ := normal.mul normal_one (by omega)
    refine ⟨g, by omega, by omega, ?_⟩
    rw [toModel_ofNat_of_short short, normal.unpack_pack (by omega) (by omega)]
    exact (product.unpack_pack (by omega) (by omega)).symm ▸ product
  · have long : 2 ^ 53 ≤ n := Nat.le_of_not_lt short
    have bits := log2_shiftLeft positive 53
    obtain ⟨e, low, high, normal⟩ := exists_normal_round (s := .positive) (m := n <<< 53) (e := -53)
      (by omega) (by omega)
    refine ⟨e, by omega, by omega, ?_⟩
    rw [toModel_ofNat_of_long long, normal.unpack_pack (by omega) (by omega)]
    exact normal

/-! ## §5 Overflow -/

/-- The whole numbers of 54 + k bits that are nearer to the next power of two than to any number
with 53 bits before the last k + 1 begin here. -/
def growthBound (k : Nat) : Nat := (2 ^ 54 - 1) * 2 ^ k

/-- From here on, whole numbers are nearer to the first power of two that is out of range than to
any double. The number has 309 digits and is not to be computed. -/
@[irreducible] def overflowBound : Nat := growthBound 970

theorem overflowBound_def : overflowBound = growthBound 970 := by
  unfold overflowBound
  rfl

theorem two_pow_le_growthBound {j k : Nat} (small : j ≤ 53 + k) : 2 ^ j ≤ growthBound k :=
  calc 2 ^ j ≤ 2 ^ (53 + k) := Nat.pow_le_pow_right (by decide) small
    _ = 2 ^ 53 * 2 ^ k := pow_add 2 53 k
    _ ≤ growthBound k := Nat.mul_le_mul_right _ (by decide)

/-- Integers of 64 bits, and many more, are in range. -/
theorem two_pow_le_overflowBound : 2 ^ 64 ≤ overflowBound := by
  rw [overflowBound_def]
  exact two_pow_le_growthBound (by decide)

theorem lt_growthBound {k : Nat} (less : n.log2 < 53 + k) : n < growthBound k := by
  by_cases zero : n = 0
  · rw [zero]
    exact Nat.mul_pos (by decide) (Nat.two_pow_pos k)
  · exact Nat.lt_of_lt_of_le ((Nat.log2_lt zero).mp less) (two_pow_le_growthBound (Nat.le_refl _))

theorem growthBound_le {k : Nat} (more : 53 + k < n.log2) : growthBound k ≤ n := by
  have nonzero : n ≠ 0 := by
    rintro rfl
    cases more
  calc growthBound k ≤ 2 ^ 54 * 2 ^ k := Nat.mul_le_mul_right _ (by decide)
    _ = 2 ^ (54 + k) := (Nat.pow_add 2 54 k).symm
    _ ≤ n := (Nat.le_log2 nonzero).mp (by omega)

/-- From the bound on, the mantissa grows by a bit in rounding. -/
theorem carries_iff_growthBound_le {k : Nat} (long : n.log2 = 53 + k) :
    roundedBits (n <<< 53) = 2 ^ 53 ↔ growthBound k ≤ n := by
  have positive : 0 < n := by
    refine Nat.pos_of_ne_zero fun zero => ?_
    rw [zero, Nat.log2_zero] at long
    omega
  have bits : (n <<< 53).log2 = k + 106 := by
    rw [log2_shiftLeft positive, long]
    omega
  rw [carries_iff (by omega), bits, Nat.shiftLeft_eq, growthBound, Nat.add_assoc,
    Nat.pow_add 2 k (106 + 1), Nat.add_sub_assoc (by decide), Nat.pow_add 2 k (106 - 53)]
  generalize 2 ^ k = unit
  omega

theorem toModel_infinity : infinity.toModel = pack (.infinity .positive) := rfl

/-- A whole number of more than 53 bits is rounded to a normal double, or else to infinity. -/
theorem ofNat_cases_of_long (long : 53 ≤ n.log2) :
    (n < overflowBound ∧ ∃ e, (n.log2 : Int) - 52 ≤ e ∧ e ≤ 971 ∧
      Normal .positive e (Float.ofNat n).toModel.unpack) ∨
    (overflowBound ≤ n ∧ Float.ofNat n = infinity) := by
  have nonzero : n ≠ 0 := by
    rintro rfl
    cases long
  have bits := log2_shiftLeft (Nat.pos_of_ne_zero nonzero) 53
  have rounded := toModel_ofNat_of_long ((Nat.le_log2 nonzero).mp long)
  have infinite : ∀ {e}, Normal .positive e (roundWithAccuracy .binary64 .positive (n <<< 53) (-53)
      .exact) → 972 ≤ e → Float.ofNat n = infinity := by
    intro e normal great
    have model : (Float.ofNat n).toModel = infinity.toModel := by
      rw [rounded, normal.pack_of_great great, toModel_infinity]
    exact congrArg Float.ofModel model
  obtain ⟨e, least, most, normal⟩ := exists_normal_round (s := .positive) (m := n <<< 53) (e := -53)
    (by omega) (by omega)
  rw [rounded, overflowBound_def]
  rcases Nat.lt_trichotomy n.log2 (53 + 970) with less | exactly | more
  · refine Or.inl ⟨?_, e, by omega, by omega, ?_⟩
    · exact lt_growthBound less
    · rw [normal.unpack_pack (by omega) (by omega)]
      exact normal
  · by_cases grown : roundedBits (n <<< 53) = 2 ^ 53
    · have great := normal_of_carry (s := .positive) (e := -53) (by omega) (by omega) grown
      exact Or.inr ⟨(carries_iff_growthBound_le exactly).mp grown, infinite great (by omega)⟩
    · have kept := Nat.lt_of_le_of_ne (roundedBits_cases (m := n <<< 53) (by omega)).2 grown
      have normal := normal_of_no_carry (s := .positive) (e := -53) (by omega) (by omega) kept
      refine Or.inl ⟨?_, _, ?_, ?_, (normal.unpack_pack ?_ ?_).symm ▸ normal⟩
      · exact Nat.lt_of_not_le (mt (carries_iff_growthBound_le exactly).mpr grown)
      all_goals omega
  · exact Or.inr ⟨growthBound_le more, infinite normal (by omega)⟩

end Tabletop
