/-
Tabletop.Proofs.Number.Finite — doubles that whole numbers are rounded to.

A signed word is rounded to zero or to a normal number of moderate size. The
sum, the difference and the product of two such numbers are far from the
greatest double, so nothing that is computed from two words is infinite.

  §1 Normal numbers as doubles
  §2 Numbers of moderate size
  §3 Whole numbers of 64 bits
-/
import Tabletop.Proofs.Number.Rounding

namespace Tabletop

open Float.Model Float.Model.UnpackedFloat

section Sizes

variable {s t : UnpackedFloat.Sign} {m n : Nat} {e f : Int} {u v : UnpackedFloat}

/-! ## §1 Normal numbers as doubles -/

theorem Normal.isFinite (h : Normal s e u) : u.isFinite = true := by
  cases h
  rfl

theorem Normal.neg (h : Normal s e u) : Normal (-s) e u.neg := by
  cases h with
  | intro full => exact .intro full

/-- A normal number is not zero. -/
theorem Normal.beq_zero {x : Float} (h : Normal s e x.toModel.unpack) : (x == 0) = false := by
  change (x.toModel.unpack.compare (.zero .positive) == some .eq) = false
  generalize x.toModel.unpack = u at h
  cases h
  cases s <;> rfl

/-- The sign that a whole number is rounded with. -/
def signOf : Int → UnpackedFloat.Sign
  | .ofNat _ => .positive
  | .negSucc _ => .negative

/-- A whole number is rounded as its magnitude is, with its own sign. -/
theorem Normal.ofInt {n : Int} (h : Normal .positive e (Float.ofNat n.natAbs).toModel.unpack)
    (low : -1074 ≤ e) (high : e ≤ 971) : Normal (signOf n) e (Float.ofInt n).toModel.unpack := by
  cases n with
  | ofNat n => exact h
  | negSucc n =>
    have opposite := h.neg
    rwa [← opposite.unpack_pack low high] at opposite

/-- A whole number other than zero is rounded to a normal one near its own length. -/
theorem exists_normal_ofInt {n : Int} (nonzero : n ≠ 0) (inRange : n.natAbs.log2 ≤ 1020) :
    ∃ s e, (n.natAbs.log2 : Int) - 52 ≤ e ∧ e ≤ n.natAbs.log2 - 49 ∧
      Normal s e (Float.ofInt n).toModel.unpack := by
  obtain ⟨e, low, high, normal⟩ := exists_normal_ofNat (Int.natAbs_pos.mpr nonzero) inRange
  exact ⟨signOf n, e, low, high, normal.ofInt (by omega) (by omega)⟩

/-- A whole number of more than 53 bits is rounded to a normal double of its sign, or else to
one of the infinities. -/
theorem ofInt_cases_of_long {n : Int} (long : 53 ≤ n.natAbs.log2) :
    (n.natAbs < overflowBound ∧ ∃ e, (n.natAbs.log2 : Int) - 52 ≤ e ∧
      Normal (signOf n) e (Float.ofInt n).toModel.unpack) ∨
    (overflowBound ≤ n.natAbs ∧ (Float.ofInt n).isFinite = false) := by
  rcases ofNat_cases_of_long long with ⟨less, e, low, high, normal⟩ | ⟨more, infinite⟩
  · exact Or.inl ⟨less, e, low, normal.ofInt (by omega) high⟩
  · refine Or.inr ⟨more, ?_⟩
    cases n with
    | ofNat n =>
      change (Float.ofNat n).isFinite = false
      rw [show Float.ofNat n = infinity from infinite]
      rfl
    | negSucc n =>
      change (Float.ofNat (n + 1)).neg.isFinite = false
      rw [show Float.ofNat (n + 1) = infinity from infinite]
      rfl

/-! ## §2 Numbers of moderate size -/

/-- Zero, or a normal number as a whole number of 64 bits is rounded to. -/
inductive Modest : UnpackedFloat → Prop
  | zero (s : UnpackedFloat.Sign) : Modest (.zero s)
  | normal {s : UnpackedFloat.Sign} {e : Int} {u : UnpackedFloat} (h : Normal s e u)
      (low : -52 ≤ e) (high : e ≤ 14) : Modest u

theorem Modest.isFinite (h : Modest u) : u.isFinite = true := by
  cases h with
  | zero s => rfl
  | normal h => exact h.isFinite

theorem Modest.neg (h : Modest u) : Modest u.neg := by
  cases h with
  | zero s => exact .zero _
  | normal h low high => exact .normal h.neg low high

theorem Modest.unpack_pack (h : Modest u) : (pack u).unpack = u := by
  cases h with
  | zero s => exact unpack_packedZero
  | normal h low high => exact h.unpack_pack (by omega) (by omega)

theorem modest_ofInt {n : Int} (short : n.natAbs < wordBound) :
    Modest (Float.ofInt n).toModel.unpack := by
  by_cases nonzero : n = 0
  · subst nonzero
    exact .zero .positive
  · have bits : n.natAbs.log2 < 64 := (Nat.log2_lt (Int.natAbs_ne_zero.mpr nonzero)).mpr short
    obtain ⟨s, e, low, high, normal⟩ := exists_normal_ofInt nonzero (by omega)
    exact .normal normal (by omega) (by omega)

/-- A number of moderate length and exponent is rounded to a finite one. -/
theorem isFinite_normalize {k : Int} (low : -52 ≤ e) (high : e ≤ 14)
    (short : k.natAbs < 2 ^ 120) :
    (pack (normalize .binary64 k e .positive)).unpack.isFinite = true := by
  have rounded : ∀ {s : UnpackedFloat.Sign} {m : Nat}, 0 < m → m < 2 ^ 120 →
      (pack (UnpackedFloat.round .binary64 s m e)).unpack.isFinite = true := by
    intro s m positive short
    have bits : m.log2 < 120 := (Nat.log2_lt (Nat.ne_of_gt positive)).mpr short
    obtain ⟨f, _, most, normal⟩ := exists_normal_of_round (s := s) (e := e) positive (by omega)
    rw [normal.unpack_pack (by omega) (by omega)]
    exact normal.isFinite
  unfold UnpackedFloat.normalize
  split
  · rename_i less
    have negative := Int.compare_eq_lt.mp less
    exact rounded (by omega) (by omega)
  · exact congrArg UnpackedFloat.isFinite (@unpack_packedZero .binary64 _)
  · rename_i more
    have positive := Int.compare_eq_gt.mp more
    exact rounded (by omega) (by omega)

/-- A mantissa at the lower one of two exponents. -/
theorem apply_shiftLeft_lt {k : Nat} (full : m.log2 = 52) (gap : k ≤ 66) :
    (s.apply (m <<< k : Nat)).natAbs < 2 ^ 119 := by
  have size : (s.apply (m <<< k : Nat)).natAbs = m <<< k := by
    cases s
    · exact (Int.natAbs_neg _).trans (Int.natAbs_natCast _)
    · exact Int.natAbs_natCast _
  have nonzero : m ≠ 0 := by
    rintro rfl
    cases full
  have short := (Nat.log2_eq_iff nonzero).mp full
  rw [size, Nat.shiftLeft_eq]
  calc m * 2 ^ k < 2 ^ 53 * 2 ^ 66 :=
        Nat.mul_lt_mul_of_lt_of_le short.2 (Nat.pow_le_pow_right (by decide) gap) (by decide)
    _ = 2 ^ 119 := by decide

/-- The sum of two such numbers is finite. -/
theorem Modest.add (hu : Modest u) (hv : Modest v) :
    (pack (UnpackedFloat.add .binary64 u v)).unpack.isFinite = true := by
  cases hu with
  | zero s =>
    cases hv with
    | zero t => cases s <;> cases t <;> rfl
    | normal hv low high =>
      have same : UnpackedFloat.add .binary64 (.zero s) v = v := by
        cases hv
        rfl
      rw [same, hv.unpack_pack (by omega) (by omega)]
      exact hv.isFinite
  | @normal s e _ hu low high =>
    cases hv with
    | zero t =>
      have same : UnpackedFloat.add .binary64 u (.zero t) = u := by
        cases hu
        rfl
      rw [same, hu.unpack_pack (by omega) (by omega)]
      exact hu.isFinite
    | @normal t f _ hv low' high' =>
      cases hu with
      | intro full =>
        cases hv with
        | intro full' =>
          refine isFinite_normalize (e := min e f) (by omega) (by omega) ?_
          have left := apply_shiftLeft_lt (s := s) (k := (e - min e f).toNat) full (by omega)
          have right := apply_shiftLeft_lt (s := t) (k := (f - min e f).toNat) full' (by omega)
          omega

/-- A difference is the sum with the opposite number. -/
theorem sub_eq_add_opposite (hu : Modest u) (hv : Modest v) :
    UnpackedFloat.sub .binary64 u v = UnpackedFloat.add .binary64 u v.neg := by
  cases hu with
  | zero s =>
    cases hv with
    | zero t => cases s <;> cases t <;> rfl
    | normal hv => cases hv; rfl
  | normal hu =>
    cases hu with
    | intro full =>
      cases hv with
      | zero t => rfl
      | @normal t _ _ hv =>
        cases hv with
        | intro full' =>
          have opposite : ∀ k, (-t).apply k = -t.apply k := by
            intro k
            cases t
            · exact (Int.neg_neg k).symm
            · rfl
          change _ = normalize .binary64 (_ + (-t).apply _) _ _
          rw [opposite]
          rfl

/-- The difference of two such numbers is finite. -/
theorem Modest.sub (hu : Modest u) (hv : Modest v) :
    (pack (UnpackedFloat.sub .binary64 u v)).unpack.isFinite = true := by
  rw [sub_eq_add_opposite hu hv]
  exact hu.add hv.neg

/-- The product of two such numbers is finite. -/
theorem Modest.mul (hu : Modest u) (hv : Modest v) :
    (pack (UnpackedFloat.mul .binary64 u v)).unpack.isFinite = true := by
  have zero : ∀ s, (pack (.zero s)).unpack.isFinite = true :=
    fun s => congrArg UnpackedFloat.isFinite (@unpack_packedZero .binary64 _)
  cases hu with
  | zero s =>
    cases hv with
    | zero t => exact zero _
    | normal hv => cases hv; exact zero _
  | normal hu low high =>
    cases hv with
    | zero t => cases hu; exact zero _
    | normal hv low' high' =>
      obtain ⟨g, _, most, normal⟩ := hu.mul hv (by omega)
      rw [normal.unpack_pack (by omega) (by omega)]
      exact normal.isFinite

end Sizes

/-! ## §3 Whole numbers of 64 bits -/

theorem natAbs_lt_wordBound {n : Int} (low : int64Min ≤ n) (high : n < wordBound) :
    n.natAbs < wordBound := by
  unfold int64Min at low
  unfold wordBound at *
  omega

/-- A 64-bit integer, signed or not, is a finite double. -/
theorem isFinite_ofInt {n : Int} (low : int64Min ≤ n) (high : n < wordBound) :
    (Float.ofInt n).isFinite = true :=
  (modest_ofInt (natAbs_lt_wordBound low high)).isFinite

end Tabletop
