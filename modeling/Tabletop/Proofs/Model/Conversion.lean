/-
Tabletop.Proofs.Model.Conversion — numbers converted into whole numbers.

A value that denotes a number is an integer, a finite double or a text of
digits. Its number stays the same in a conversion into a signed word, as long
as it is whole and in range. A whole number that is out of range is not
refused: as far as the doubles reach, it is converted into the nearer end of
the range (`coerceInt_of_denotes`).

  §1 Numbers  — what values denote.
  §2 Doubles  — whole ones as signed words.
  §3 Integers — rounded, and then as signed words.
  §4 Values   — converted, refused, and kept.
-/
import Tabletop.Proofs.Model.Exact
import Tabletop.Proofs.Number.Digits
import Tabletop.Proofs.Number.Parts
import Tabletop.Proofs.Template.Lexing
import Tabletop.Proofs.Value.Split

namespace Tabletop

variable {cs : List Char} {n : Int} {x : Float} {q : ℚ} {v w : Value}

/-! ## §1 Numbers -/

/-- The value stands for the number: an integer of 64 bits, a finite double, or a text of digits. -/
inductive Value.Denotes : Value → ℚ → Prop
  | int {n : Int} (low : int64Min ≤ n) (high : n < wordBound) : Denotes (.int n) n
  | float {x : Float} (finite : x.isFinite = true) : Denotes (.float x) (Binary64.ofFloat x).toRat
  | text {s : String} {n : Int} (written : Written s.toList n) : Denotes (.text s) n

/-- There are no blanks in digits. -/
theorem Written.not_blank (h : Written cs n) : ∀ c ∈ cs, isBlank c = false := by
  have unblank : ∀ {ds : List Char}, (∀ c ∈ ds, c.isDigit = true) → ∀ c ∈ ds, isBlank c = false :=
    fun digits c hc => (startsName_isBlank_of_isDigit (digits c hc)).2
  cases h with
  | plain _ digits => exact unblank digits
  | plus _ digits => exact List.forall_mem_cons.mpr ⟨by decide, unblank digits⟩
  | minus _ digits => exact List.forall_mem_cons.mpr ⟨by decide, unblank digits⟩

/-- Digits are not trimmed. -/
theorem trimChars_of_written (h : Written cs n) : trimChars cs = cs :=
  trimWhile_eq_self h.not_blank

theorem clampInt_eq_self_iff : clampInt int64Min int64Max n = n ↔ int64Min ≤ n ∧ n ≤ int64Max := by
  unfold clampInt int64Min int64Max
  split
  · omega
  · split <;> omega

/-! ## §2 Doubles -/

theorem isNaN_of_isFinite (finite : x.isFinite = true) : x.isNaN = false := by
  change x.toModel.unpack.isFinite = true at finite
  change x.toModel.unpack.isNaN = false
  cases unpacked : x.toModel.unpack with
  | notANumber =>
    rw [unpacked] at finite
    cases finite
  | _ => rfl

theorem truncateToInt64_of_isFinite (finite : x.isFinite = true) :
    truncateToInt64 x = clampInt int64Min int64Max (Binary64.ofFloat x).truncated := by
  unfold truncateToInt64 truncateFloat
  rw [isNaN_of_isFinite finite, if_neg Bool.false_ne_true, if_pos finite]

/-- A finite double is converted exactly if its number is whole. -/
theorem wholeToInt64?_eq_some_iff (finite : x.isFinite = true) {m : Int} :
    wholeToInt64? x = some m ↔ ∃ n : Int, (Binary64.ofFloat x).toRat = n ∧
      n.natAbs < overflowBound ∧ m = clampInt int64Min int64Max n := by
  have whole : isWholeFloat x = (Binary64.ofFloat x).isWhole := by
    rw [isWholeFloat, finite, Bool.true_and]
  have bound := Binary64.truncated_ofFloat_lt finite
  unfold wholeToInt64?
  rw [whole, truncateToInt64_of_isFinite finite]
  simp only [Binary64.toRat_eq_intCast_iff]
  constructor
  · intro h
    split at h
    · rename_i holds
      cases h
      exact ⟨(Binary64.ofFloat x).truncated, ⟨holds, rfl⟩, bound, rfl⟩
    · cases h
  · rintro ⟨n, ⟨holds, rfl⟩, -, rfl⟩
    rw [if_pos holds]

/-! ## §3 Integers -/

theorem clampInt_of_above (above : int64Max ≤ n) : clampInt int64Min int64Max n = int64Max := by
  unfold clampInt int64Min int64Max at *
  split
  · omega
  · split <;> omega

theorem clampInt_of_below (below : n ≤ int64Min) : clampInt int64Min int64Max n = int64Min := by
  unfold clampInt int64Min int64Max at *
  split
  · omega
  · split <;> omega

/-- What is beyond the range on the side of an integer there goes to the same end. -/
theorem clampInt_of_same_side {m : Int} (unfit : fitsInt64 n = false)
    (side : 2 ^ 63 ≤ (signOf n).apply m) :
    clampInt int64Min int64Max m = clampInt int64Min int64Max n := by
  rw [fitsInt64_eq_false_iff] at unfit
  cases n with
  | ofNat n =>
    have above : int64Max ≤ m := Int.le_of_lt side
    have positive : int64Min ≤ Int.ofNat n := Int.le_trans (by decide) (Int.natCast_nonneg n)
    rw [clampInt_of_above above, clampInt_of_above]
    omega
  | negSucc n =>
    have below : m ≤ int64Min := Int.le_neg_of_le_neg side
    have negative : Int.negSucc n ≤ int64Max :=
      Int.le_trans (Int.le_of_lt (Int.negSucc_lt_zero n)) (by decide)
    rw [clampInt_of_below below, clampInt_of_below]
    omega

/-- An integer that is no signed word, rounded and converted. -/
theorem wholeToInt64?_ofInt (unfit : fitsInt64 n = false) : wholeToInt64? (Float.ofInt n) =
    if n.natAbs < overflowBound then some (clampInt int64Min int64Max n) else none := by
  have great : 2 ^ 63 ≤ n.natAbs := by
    rw [fitsInt64_eq_false_iff] at unfit
    unfold int64Min int64Max at unfit
    omega
  have long : 63 ≤ n.natAbs.log2 := (Nat.le_log2 (by omega)).mpr great
  rcases ofInt_cases_of_long (n := n) (by omega) with ⟨less, e, low, normal⟩ | ⟨more, infinite⟩
  · have finite : (Float.ofInt n).isFinite = true := normal.isFinite
    obtain ⟨whole, side⟩ := normal.truncated (by omega)
    rw [if_pos less, wholeToInt64?, isWholeFloat, finite, whole, Bool.true_and, if_pos rfl,
      truncateToInt64_of_isFinite finite, clampInt_of_same_side unfit side]
  · rw [if_neg (Nat.not_lt.mpr more), wholeToInt64?, isWholeFloat, infinite, Bool.false_and,
      if_neg Bool.false_ne_true]

/-- An integer as it is converted, whether it is a signed word or not. -/
theorem fits_or_rounded (n : Int) :
    (if fitsInt64 n then some n else wholeToInt64? (Float.ofInt n)) =
      if n.natAbs < overflowBound then some (clampInt int64Min int64Max n) else none := by
  cases fits : fitsInt64 n with
  | true =>
    have bounds : int64Min ≤ n ∧ n ≤ int64Max := by simpa [fitsInt64] using fits
    have small : n.natAbs < 2 ^ 64 := by
      unfold int64Min int64Max at bounds
      omega
    rw [if_pos rfl, if_pos (Nat.lt_of_lt_of_le small two_pow_le_overflowBound),
      clampInt_eq_self_iff.mpr bounds]
  | false => rw [if_neg Bool.false_ne_true, wholeToInt64?_ofInt fits]

/-! ## §4 Values -/

theorem Primitive.toInt?_eq_some_iff (h : v.Denotes q) {m : Int} :
    Primitive.toInt? v = some m ↔
      ∃ n : Int, q = n ∧ n.natAbs < overflowBound ∧ m = clampInt int64Min int64Max n := by
  have integer : ∀ n : Int, (if fitsInt64 n then some n else wholeToInt64? (Float.ofInt n)) = some m ↔
      ∃ k : Int, (n : ℚ) = k ∧ k.natAbs < overflowBound ∧ m = clampInt int64Min int64Max k := by
    intro n
    rw [fits_or_rounded, Option.ite_none_right_eq_some, Option.some_inj]
    constructor
    · rintro ⟨small, rfl⟩
      exact ⟨n, rfl, small, rfl⟩
    · rintro ⟨k, same, small, rfl⟩
      rw [Int.cast_inj.mp same]
      exact ⟨small, rfl⟩
  cases h with
  | @int n low high => exact integer n
  | float finite => exact wholeToInt64?_eq_some_iff finite
  | @text s n written =>
    rw [← integer]
    simp only [toInt?]
    rw [trimChars_of_written written, readInt64_of_written written, asInt64]
    cases fits : fitsInt64 n with
    | true => rfl
    | false =>
      have nonzero : n ≠ 0 := by
        rintro rfl
        cases fits
      simp only [Bool.false_eq_true, if_false]
      rw [readFloat_of_written written nonzero, Option.bind_some]

theorem coercePrimitive_int (h : v.Denotes q) : coercePrimitive v "int" =
    match Primitive.toInt? v with
    | some m => .ok (.int m)
    | none => .error (.coercion v.compact "int") := by
  have full : v ≠ .null := by
    rintro rfl
    cases h
  rw [coercePrimitive_of_ne_null (p := .int) rfl full, Primitive.convert?]
  cases Primitive.toInt? v <;> rfl

/-- A value that denotes a number is converted if the number is whole and in the range of doubles,
and refused if it is not. What it is converted into denotes the same number exactly if the number is
in the range of signed words. -/
theorem coerceInt_of_denotes (h : v.Denotes q) :
    (∀ n : Int, q = n → n.natAbs < overflowBound →
      coercePrimitive v "int" = .ok (.int (clampInt int64Min int64Max n))) ∧
    ((∀ n : Int, q = n → overflowBound ≤ n.natAbs) →
      coercePrimitive v "int" = .error (.coercion v.compact "int")) ∧
    ∀ m : Int, coercePrimitive v "int" = .ok (.int m) →
      ((m : ℚ) = q ↔ int64Min ≤ q ∧ q ≤ int64Max) := by
  rw [coercePrimitive_int h]
  refine ⟨?_, ?_, ?_⟩
  · intro n same small
    have found := (Primitive.toInt?_eq_some_iff h).mpr ⟨n, same, small, rfl⟩
    rw [found]
  · intro none
    cases found : Primitive.toInt? v with
    | none => rfl
    | some m =>
      obtain ⟨n, same, small, -⟩ := (Primitive.toInt?_eq_some_iff h).mp found
      exact absurd small (Nat.not_lt.mpr (none n same))
  · intro m converted
    cases found : Primitive.toInt? v with
    | none =>
      rw [found] at converted
      cases converted
    | some k =>
      rw [found] at converted
      cases converted
      obtain ⟨n, rfl, -, rfl⟩ := (Primitive.toInt?_eq_some_iff h).mp found
      rw [Int.cast_inj, Int.cast_le, Int.cast_le, clampInt_eq_self_iff]

/-- The least signed word, as digits with a minus, is converted into itself. -/
theorem coerceInt_least :
    Value.Denotes (.text "-9223372036854775808") (-9223372036854775808) ∧
      coercePrimitive (.text "-9223372036854775808") "int" = .ok (.int (-9223372036854775808)) := by
  have written : Written "-9223372036854775808".toList (-9223372036854775808) :=
    .minus (List.cons_ne_nil '9' "223372036854775808".toList) (List.all_eq_true.mp rfl)
  have denotes : Value.Denotes (.text "-9223372036854775808") ((-9223372036854775808 : Int) : ℚ) :=
    .text written
  exact ⟨by exact_mod_cast denotes, (coerceInt_of_denotes denotes).1 _ rfl
    (Nat.lt_of_lt_of_le (by decide) two_pow_le_overflowBound)⟩

/-- The integer after the greatest signed word becomes that word. -/
theorem coerceInt_loses_one :
    coercePrimitive (.int 9223372036854775808) "int" = .ok (.int 9223372036854775807) := by
  have denotes : Value.Denotes (.int 9223372036854775808) ((9223372036854775808 : Int) : ℚ) :=
    .int (by decide) (by decide)
  have small : (9223372036854775808 : Int).natAbs < overflowBound :=
    Nat.lt_of_lt_of_le (by decide) two_pow_le_overflowBound
  have found := (Primitive.toInt?_eq_some_iff denotes).mpr
    ⟨9223372036854775808, rfl, small, rfl⟩
  rw [coercePrimitive_int denotes, found]
  rfl

end Tabletop
