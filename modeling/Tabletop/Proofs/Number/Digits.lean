/-
Tabletop.Proofs.Number.Digits — whole numbers written in texts.

Digits with an optional sign are read in two ways: as a signed word, where
they fit, and as a decimal. A decimal is cut off where its digits no longer
matter, and settled by its length where it is far out of range; for digits
that is the same as rounding the number they denote.

  §1 Values  — what digits denote.
  §2 Words   — reading them as a signed word.
  §3 Doubles — reading them as a decimal.
-/
import Tabletop.Proofs.Number.Finite

namespace Tabletop

variable {cs ds : List Char} {c : Char} {n k : Nat} {z : Int}

/-! ## §1 Values -/

/-- Digits with an optional sign, and the integer that they denote. -/
inductive Written : List Char → Int → Prop
  | plain {ds : List Char} (some_digit : ds ≠ []) (digits : ∀ c ∈ ds, c.isDigit = true) :
      Written ds (Nat.ofDigitChars 10 ds 0)
  | plus {ds : List Char} (some_digit : ds ≠ []) (digits : ∀ c ∈ ds, c.isDigit = true) :
      Written ('+' :: ds) (Nat.ofDigitChars 10 ds 0)
  | minus {ds : List Char} (some_digit : ds ≠ []) (digits : ∀ c ∈ ds, c.isDigit = true) :
      Written ('-' :: ds) (-(Nat.ofDigitChars 10 ds 0 : Int))

theorem digitsValue_eq (ds : List Char) : digitsValue ds = Nat.ofDigitChars 10 ds 0 :=
  Nat.ofDigitChars_eq_foldl.symm

theorem digitsValue_append (cs ds : List Char) :
    digitsValue (cs ++ ds) = 10 ^ ds.length * digitsValue cs + digitsValue ds := by
  simp only [digitsValue_eq]
  rw [Nat.ofDigitChars_append, Nat.ofDigitChars_eq_ofDigitChars_zero]

/-- Zeros in front do not count. -/
theorem digitsValue_dropWhile (ds : List Char) :
    digitsValue (ds.dropWhile (· = '0')) = digitsValue ds := by
  induction ds with
  | nil => rfl
  | cons c ds ih =>
    by_cases zero : c = '0'
    · subst zero
      exact ih
    · rw [List.dropWhile_cons, if_neg (mt of_decide_eq_true zero)]

/-- Digits that begin with one other than zero. -/
theorem pow_le_digitsValue (digit : c.isDigit = true) (nonzero : c ≠ '0') (ds : List Char) :
    10 ^ ds.length ≤ digitsValue (c :: ds) := by
  have value : 0 < digitsValue [c] := by
    have other : c.toNat ≠ 48 := fun same => nonzero (Char.toNat_inj.mp same)
    simp only [Char.isDigit, Bool.and_eq_true, decide_eq_true_eq] at digit
    have low : 48 ≤ c.toNat := digit.1
    change 0 < 10 * 0 + (c.toNat - 48)
    omega
  calc 10 ^ ds.length ≤ 10 ^ ds.length * digitsValue [c] := Nat.le_mul_of_pos_right _ value
    _ ≤ digitsValue ([c] ++ ds) := by
      rw [digitsValue_append]
      exact Nat.le_add_right _ _

/-! ## §2 Words -/

theorem readDigits_eq (some_digit : ds ≠ []) (digits : ∀ c ∈ ds, c.isDigit = true) :
    readDigits ds = if digitsValue ds < wordBound then some (digitsValue ds) else none := by
  have all : ds.all Char.isDigit = true := List.all_eq_true.mpr digits
  have filled : ds.isEmpty = false := List.isEmpty_eq_false_iff.mpr some_digit
  rw [readDigits, all, filled]
  by_cases less : digitsValue ds < wordBound
  · rw [if_pos less, (digitsUpTo_eq_iff less).mpr rfl]
    simp [Option.filter, less]
  · have more : ¬ digitsUpTo wordBound ds < wordBound :=
      fun read => less ((digitsUpTo_eq_iff read).mp rfl ▸ read)
    rw [if_neg less]
    simp [Option.filter, more]

/-- With a sign given to them, digits are a signed word exactly if they fit. -/
theorem readDigits_bind (some_digit : ds ≠ []) (digits : ∀ c ∈ ds, c.isDigit = true)
    {signed : Nat → Int} (far : ∀ n, wordBound ≤ n → fitsInt64 (signed n) = false) :
    ((readDigits ds).bind fun n => asInt64 (signed n)) = asInt64 (signed (digitsValue ds)) := by
  rw [readDigits_eq some_digit digits]
  by_cases less : digitsValue ds < wordBound
  · rw [if_pos less, Option.bind_some]
  · rw [if_neg less, Option.bind_none, asInt64, far _ (Nat.le_of_not_lt less)]
    rfl

theorem fitsInt64_eq_false_iff : fitsInt64 z = false ↔ z < int64Min ∨ int64Max < z := by
  unfold fitsInt64
  simp only [Bool.and_eq_false_iff, decide_eq_false_iff_not, Int.not_le]

/-- Digits begin with no sign. -/
theorem ne_sign_cons (digits : ∀ c ∈ ds, c.isDigit = true) (rest : List Char) :
    ds ≠ '+' :: rest ∧ ds ≠ '-' :: rest := by
  constructor
  all_goals
    rintro rfl
    exact absurd (digits _ List.mem_cons_self) (by decide)

/-- As a word, digits are read wherever they fit. -/
theorem readInt64_of_written (h : Written cs z) : readInt64 cs = asInt64 z := by
  have above : ∀ n : Nat, wordBound ≤ n → fitsInt64 n = false := by
    intro n far
    unfold wordBound at far
    rw [fitsInt64_eq_false_iff, int64Max]
    omega
  have below : ∀ n : Nat, wordBound ≤ n → fitsInt64 (-(n : Int)) = false := by
    intro n far
    unfold wordBound at far
    rw [fitsInt64_eq_false_iff, int64Min]
    omega
  cases h with
  | plain some_digit digits =>
    unfold readInt64
    split
    · exact absurd rfl (ne_sign_cons digits _).1
    · exact absurd rfl (ne_sign_cons digits _).2
    · exact readDigits_bind some_digit digits above
  | plus some_digit digits => exact readDigits_bind some_digit digits above
  | minus some_digit digits => exact readDigits_bind some_digit digits below

/-! ## §3 Doubles -/

theorem pow_le_iff_lt_length (positive : 0 < k) : 10 ^ k ≤ n ↔ k < (Nat.toDigits 10 n).length := by
  have short := Nat.length_toDigits_le_iff (n := n) (by decide : 1 < 10) positive
  rw [← Nat.not_lt, ← short, Nat.not_le]

theorem growthBound_le_of_lt_length {j : Nat} (positive : 0 < j) (small : k + 54 ≤ 3 * j)
    (long : j < (Nat.toDigits 10 n).length) : growthBound k ≤ n :=
  calc growthBound k ≤ 2 ^ 54 * 2 ^ k := Nat.mul_le_mul_right _ (by decide)
    _ = 2 ^ (54 + k) := (pow_add 2 54 k).symm
    _ ≤ 2 ^ (3 * j) := Nat.pow_le_pow_right (by decide) (by omega)
    _ = 8 ^ j := pow_mul 2 3 j
    _ ≤ 10 ^ j := Nat.pow_le_pow_left (by decide) j
    _ ≤ n := (pow_le_iff_lt_length positive).mpr long

/-- Numbers of more than 400 digits are out of range. -/
theorem overflowBound_le_of_lt_length (long : 400 < (Nat.toDigits 10 n).length) :
    overflowBound ≤ n := by
  rw [overflowBound_def]
  exact growthBound_le_of_lt_length (by decide) (by decide) long

theorem ofNat_of_overflowBound_le (large : overflowBound ≤ n) : Float.ofNat n = infinity := by
  have least := two_pow_le_overflowBound
  have long : 53 ≤ n.log2 := (Nat.le_log2 (by omega)).mpr (by omega)
  rcases ofNat_cases_of_long long with ⟨less, _⟩ | ⟨_, infinite⟩
  · exact absurd large (Nat.not_le.mpr less)
  · exact infinite

/-- Numbers of more than 400 digits are settled by their length. -/
theorem nearestFloat_of_long (long : 400 < (Nat.toDigits 10 n).length) {e : Int} (whole : 0 ≤ e) :
    nearestFloat n e = infinity := by
  have nonzero : n ≠ 0 := by
    rintro rfl
    exact absurd long (by decide)
  unfold nearestFloat
  rw [if_neg nonzero, if_pos (by omega)]

theorem nearestFloat_zero (n : Nat) : nearestFloat n 0 = Float.ofNat n := by
  by_cases long : 400 < (Nat.toDigits 10 n).length
  · rw [nearestFloat_of_long long (Int.le_refl 0), ofNat_of_overflowBound_le]
    exact overflowBound_le_of_lt_length long
  · unfold nearestFloat
    split
    · rename_i zero
      rw [zero]
      rfl
    · rw [if_neg (by omega), if_neg (by omega)]
      rfl

/-- Digits that begin with one other than zero denote a number of that length. -/
theorem lt_length_toDigits (digit : c.isDigit = true) (nonzero : c ≠ '0') (positive : 0 < k)
    (long : k ≤ ds.length) (grown : digitsValue (c :: ds) ≤ n) :
    k < (Nat.toDigits 10 n).length :=
  (pow_le_iff_lt_length positive).mp <|
    calc 10 ^ k ≤ 10 ^ ds.length := Nat.pow_le_pow_right (by decide) long
      _ ≤ digitsValue (c :: ds) := pow_le_digitsValue digit nonzero ds
      _ ≤ n := grown

/-- Behind 800 digits, a number is too great however it goes on. -/
theorem nearestDecimal_digits (digits : ∀ c ∈ ds, c.isDigit = true) :
    nearestDecimal ds 0 = Float.ofNat (digitsValue ds) := by
  rw [← digitsValue_dropWhile ds]
  unfold nearestDecimal
  have front : ∀ c rest, ds.dropWhile (· = '0') = c :: rest → c ≠ '0' := by
    intro c rest same
    have first := List.head_dropWhile_not (· = '0') (same ▸ List.cons_ne_nil c rest)
    simp only [same, List.head_cons] at first
    exact of_decide_eq_false first
  have digits : ∀ c ∈ ds.dropWhile (· = '0'), c.isDigit = true :=
    fun c hc => digits c ((List.dropWhile_sublist _).mem hc)
  generalize ds.dropWhile (· = '0') = written at *
  dsimp only
  by_cases short : written.length ≤ decisiveDigits
  · rw [List.drop_eq_nil_of_le short, List.take_of_length_le short]
    exact nearestFloat_zero _
  · unfold decisiveDigits at *
    cases written with
    | nil => exact absurd (Nat.zero_le _) short
    | cons c rest =>
      have digit := digits c List.mem_cons_self
      have nonzero := front c rest rfl
      have tail : 800 ≤ rest.length := by
        rw [List.length_cons] at short
        omega
      have kept : 400 ≤ (rest.take 799).length := by
        rw [List.length_take]
        omega
      have beyond : 0 < ((c :: rest).drop 800).length := by
        rw [List.length_drop, List.length_cons]
        omega
      rw [ofNat_of_overflowBound_le (overflowBound_le_of_lt_length
        (lt_length_toDigits digit nonzero (by decide) (by omega) (Nat.le_refl _)))]
      split
      · exact nearestFloat_of_long (lt_length_toDigits digit nonzero (by decide) kept
          (Nat.le_refl _)) (by omega)
      · refine nearestFloat_of_long (lt_length_toDigits digit nonzero (by decide) kept ?_) (by omega)
        rw [List.take_succ_cons]
        omega

theorem readMagnitude_digits (some_digit : ds ≠ []) (digits : ∀ c ∈ ds, c.isDigit = true) :
    readMagnitude ds = some (Float.ofNat (digitsValue ds)) := by
  have front : ds.takeWhile Char.isDigit = ds := List.takeWhile_eq_self_iff.mpr digits
  have rest : ds.dropWhile Char.isDigit = [] := List.dropWhile_eq_nil_iff.mpr digits
  have filled : ds.isEmpty = false := List.isEmpty_eq_false_iff.mpr some_digit
  rw [← nearestDecimal_digits digits]
  unfold readMagnitude
  simp only [front, rest, List.append_nil, filled, Bool.false_eq_true, if_false]
  rfl

/-- As a decimal, digits are rounded; a zero with a minus is the negative one. -/
theorem readFloat_written (h : Written cs z) :
    readFloat cs = some (Float.ofInt z) ∨ z = 0 ∧ readFloat cs = some (-(Float.ofInt 0)) := by
  have unsigned : ∀ {ds}, ds ≠ [] → (∀ c ∈ ds, c.isDigit = true) →
      (readMagnitude ds <|> readSpecial ds) = some (Float.ofNat (Nat.ofDigitChars 10 ds 0)) := by
    intro ds some_digit digits
    rw [readMagnitude_digits some_digit digits, digitsValue_eq]
    rfl
  cases h with
  | plain some_digit digits =>
    refine Or.inl ?_
    unfold readFloat
    dsimp only
    split
    · exact absurd rfl (ne_sign_cons digits _).1
    · exact absurd rfl (ne_sign_cons digits _).2
    · exact unsigned some_digit digits
  | plus some_digit digits => exact Or.inl (unsigned some_digit digits)
  | minus some_digit digits =>
    change (readMagnitude _ <|> readSpecial _).map _ = _ ∨
      _ ∧ (readMagnitude _ <|> readSpecial _).map _ = _
    rw [unsigned some_digit digits]
    generalize Nat.ofDigitChars 10 _ 0 = n at *
    cases n with
    | zero => exact Or.inr ⟨rfl, rfl⟩
    | succ n => exact Or.inl rfl

theorem readFloat_of_written (h : Written cs z) (nonzero : z ≠ 0) :
    readFloat cs = some (Float.ofInt z) :=
  (readFloat_written h).resolve_right fun negative => nonzero negative.1

end Tabletop
