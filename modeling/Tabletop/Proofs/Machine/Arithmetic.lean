/-
Tabletop.Proofs.Machine.Arithmetic — operators on signed words.

The machine computes with signed words. An operation that may have a result
that does not fit says so, and a double takes the place of that result.
What is computed without asking always fits: one less than a quotient, and
what is left over with the divisor added to it. So on every two values the
operators have the results that they have on unbounded numbers.

  §1 Operations that may fail
  §2 Floors
  §3 Operators
  §4 Numbers and repetitions
-/
import Tabletop.Proofs.Machine.Word
import Tabletop.Template.Arithmetic

namespace Tabletop

namespace Machine

/-! ## §1 Operations that may fail -/

/-- The quotient of two signed words, cut off; none for a zero divisor, and where it does not
fit. -/
def checkedDiv (a b : Int) : Option Int := if b = 0 then none else asInt64 (a.tdiv b)

/-- What the quotient leaves over, where there is one. -/
def checkedRem (a b : Int) : Option Int := (checkedDiv a b).map fun _ => a.tmod b

/-- The product of two unsigned words if it fits. -/
def checkedProduct (a b : Nat) : Option Nat := if a * b < wordBound then some (a * b) else none

/-- The operation, where its result is a signed word. -/
def checked (operation : Int → Int → Int) (a b : Int) : Option Int := asInt64 (operation a b)

/-! ## §2 Floors -/

/-- The signs of a remainder and of its divisor differ. -/
def straddles (remainder divisor : Int) : Bool :=
  remainder ≠ 0 && decide (remainder < 0) != decide (divisor < 0)

/-- The floor of the quotient of two signed words. -/
def floorQuotient (a b : Int) : Machine (Option Int) :=
  match checkedDiv a b, checkedRem a b with
  | some quotient, some remainder =>
      if straddles remainder b then do
        let less ← int64 (quotient - 1)
        .ok (some less)
      else .ok (some quotient)
  | some _, none => .ok none
  | none, some _ => .ok none
  | none, none => .ok none

/-- What the floor of the quotient leaves over. -/
def floorRemainder (a b : Int) : Machine Int :=
  match checkedRem a b with
  | some remainder => if straddles remainder b then int64 (remainder + b) else .ok remainder
  | none => .ok 0

section Floors

variable {a b : Int}

theorem fitsInt64_iff {n : Int} : fitsInt64 n = true ↔ -9223372036854775808 ≤ n
    ∧ n ≤ 9223372036854775807 := by
  unfold fitsInt64 int64Min int64Max
  simp

theorem tmod_neg_iff (indivisible : ¬ b ∣ a) : a.tmod b < 0 ↔ a < 0 := by
  have left : a.tmod b ≠ 0 := mt Int.dvd_of_tmod_eq_zero indivisible
  rcases Int.lt_or_le a 0 with negative | positive
  · have := Int.tmod_nonneg b (Int.neg_nonneg_of_nonpos (Int.le_of_lt negative))
    rw [Int.neg_tmod] at this
    omega
  · have := Int.tmod_nonneg b positive
    omega

/-- What is left over and its divisor have different signs where the divisor does not divide and the
quotient is below zero. -/
theorem straddles_tmod :
    straddles (a.tmod b) b = true ↔ ¬ b ∣ a ∧ (a < 0 ↔ ¬ b < 0) := by
  unfold straddles
  by_cases divides : b ∣ a
  · simp [Int.tmod_eq_zero_of_dvd divides, divides]
  · have left : a.tmod b ≠ 0 := mt Int.dvd_of_tmod_eq_zero divides
    have sign := tmod_neg_iff divides
    by_cases negative : a < 0 <;> by_cases below : b < 0 <;>
      simp [left, divides, sign, negative, below]

theorem fdiv_eq_tdiv_sub (nonzero : b ≠ 0) :
    a.fdiv b = a.tdiv b - if straddles (a.tmod b) b then 1 else 0 := by
  rw [Int.fdiv_eq_tdiv, if_congr straddles_tmod rfl rfl]
  rcases Int.lt_or_gt_of_ne nonzero with below | above
  · rw [Int.sign_eq_neg_one_of_neg below]
    grind
  · rw [Int.sign_eq_one_of_pos above]
    grind

theorem fmod_eq_tmod_add (nonzero : b ≠ 0) :
    a.fmod b = a.tmod b + if straddles (a.tmod b) b then b else 0 := by
  have split := Int.mul_fdiv_add_fmod a b
  have cut := Int.mul_tdiv_add_tmod a b
  rw [fdiv_eq_tdiv_sub nonzero] at split
  split at split
  · rename_i differ
    rw [if_pos differ]
    rw [Int.mul_sub] at split
    omega
  · rename_i same
    rw [if_neg same]
    rw [Int.sub_zero] at split
    omega

/-- Where one is taken from a quotient, the quotient is not above zero. -/
theorem tdiv_nonpos_of_straddles (differ : straddles (a.tmod b) b = true) : a.tdiv b ≤ 0 := by
  obtain ⟨-, signs⟩ := straddles_tmod.mp differ
  rcases Int.lt_or_le a 0 with negative | positive
  · have := Int.tdiv_nonneg (Int.neg_nonneg_of_nonpos (Int.le_of_lt negative))
      (Int.not_lt.mp (signs.mp negative))
    rw [Int.neg_tdiv] at this
    omega
  · exact Int.tdiv_nonpos_of_nonneg_of_nonpos positive (by omega)

/-- So one less is a signed word too. -/
theorem fits_quotient (ha : fitsInt64 a = true) (nonzero : b ≠ 0)
    (differ : straddles (a.tmod b) b = true) :
    fitsInt64 (a.tdiv b) = true ∧ fitsInt64 (a.fdiv b) = true := by
  have floor := fdiv_eq_tdiv_sub (a := a) nonzero
  rw [if_pos differ] at floor
  have low := tdiv_nonpos_of_straddles differ
  have small := Int.natAbs_fdiv_le_natAbs a b
  rw [fitsInt64_iff] at ha ⊢
  rw [fitsInt64_iff]
  omega

theorem floorQuotient_eq (ha : fitsInt64 a = true) (nonzero : b ≠ 0) :
    floorQuotient a b = .ok (asInt64 (a.fdiv b)) := by
  rw [floorQuotient, checkedRem, checkedDiv, if_neg nonzero]
  by_cases differ : straddles (a.tmod b) b = true
  · obtain ⟨cut, floor⟩ := fits_quotient ha nonzero differ
    have less : a.fdiv b = a.tdiv b - 1 := by rw [fdiv_eq_tdiv_sub nonzero, if_pos differ]
    rw [asInt64, if_pos cut, asInt64, if_pos floor]
    simp only [Option.map_some, differ, if_true]
    rw [← less, bind_eq (int64_eq floor)]
  · rw [fdiv_eq_tdiv_sub nonzero, if_neg differ, Int.sub_zero]
    cases asInt64 (a.tdiv b) with
    | none => rfl
    | some quotient =>
      simp only [Option.map_some, differ]
      rfl

example : floorQuotient int64Min (-1) = .ok none := by decide

/-- Where the quotient does not fit, nothing is left over: it is that of the least signed word by
minus one. -/
theorem dvd_of_not_fits (ha : fitsInt64 a = true) (large : fitsInt64 (a.tdiv b) ≠ true) :
    b ∣ a := by
  by_cases unit : b.natAbs = 1
  · exact Int.natAbs_dvd.mp (by rw [unit]; exact Int.one_dvd a)
  · have half : (a.tdiv b).natAbs ≤ a.natAbs / 2 := by
      rw [Int.natAbs_tdiv]
      by_cases zero : b = 0
      · have none_left : a.natAbs / 0 = 0 := Nat.div_zero _
        rw [zero]
        exact none_left.trans_le (Nat.zero_le _)
      · exact Nat.div_le_div_left (by omega) (by decide)
    rw [fitsInt64_iff] at ha
    rw [Ne, fitsInt64_iff] at large
    omega

theorem floorRemainder_eq (ha : fitsInt64 a = true) (hb : fitsInt64 b = true) (nonzero : b ≠ 0) :
    floorRemainder a b = .ok (a.fmod b) := by
  rw [floorRemainder, checkedRem, checkedDiv, if_neg nonzero, asInt64]
  rw [fmod_eq_tmod_add nonzero]
  by_cases cut : fitsInt64 (a.tdiv b) = true
  · rw [if_pos cut, Option.map_some]
    by_cases differ : straddles (a.tmod b) b = true
    · have fits : fitsInt64 (a.tmod b + b) = true := by
        obtain ⟨indivisible, signs⟩ := straddles_tmod.mp differ
        have sign := tmod_neg_iff indivisible
        have small : (a.tmod b).natAbs ≤ a.natAbs := by
          rw [Int.natAbs_tmod]
          exact Nat.mod_le _ _
        rw [fitsInt64_iff] at ha hb ⊢
        omega
      simp only [differ, if_true]
      exact int64_eq fits
    · simp only [differ]
      simp
  · have divides := dvd_of_not_fits ha cut
    have same : ¬ straddles (a.tmod b) b = true :=
      fun differ => (straddles_tmod.mp differ).1 divides
    rw [if_neg cut, if_neg same, Int.tmod_eq_zero_of_dvd divides]
    rfl

end Floors

/-! ## §3 Operators -/

/-- The whole number, or the double that takes its place. -/
def orRounded : Option Int → Float → Value
  | some k, _ => .int k
  | none, x => .ofFloat x

/-- An operator whose result on whole numbers is a double where it does not fit. -/
def arithmetic (op : BinaryOp) (exact : Int → Int → Int) (rounded : Float → Float → Float)
    (left right : Value) : Attempt Fault Value := do
  let (a, b) ← settle (numericPair op left right)
  match a, b with
  | .int m, .int n => pure (orRounded (checked exact m n) (rounded (Float.ofInt m) (Float.ofInt n)))
  | _, _ => pure (.ofFloat (rounded a.toFloat b.toFloat))

/-- The floor of the quotient. -/
def floorDivide (left right : Value) : Attempt Fault Value := do
  let (a, b) ← settle (numericPair .floorDivide left right)
  if b.toFloat == 0 then throw .divisionByZero
  else
    match a, b with
    | .int m, .int n => do
        let k ← floorQuotient m n
        pure (orRounded k (floorFloat (Float.ofInt m / Float.ofInt n)))
    | _, _ => pure (.ofFloat (floorFloat (a.toFloat / b.toFloat)))

/-- What the floor of the quotient leaves over. -/
def floorModulo (left right : Value) : Attempt Fault Value := do
  let (a, b) ← settle (numericPair .modulo left right)
  if b.toFloat == 0 then throw .moduloByZero
  else
    match a, b with
    | .int m, .int n => do
        let k ← floorRemainder m n
        pure (.int k)
    | _, _ => pure (.ofFloat (a.toFloat - b.toFloat * floorFloat (a.toFloat / b.toFloat)))

/-- The opposite number. -/
def negate (v : Value) : Attempt Fault Value :=
  match v.numeric? with
  | some (.int n) => pure (orRounded (asInt64 (-n)) (-(Float.ofInt n)))
  | some (.float x) => pure (.ofFloat (-x))
  | none => throw .negatedNonNumber

/-- Texts and lists are joined, numbers added. -/
def add : Value → Value → Attempt Fault Value
  | .text a, .text b => pure (.text (a ++ b))
  | .list a, .list b => pure (.list (a ++ b))
  | left, right => arithmetic .add (· + ·) (· + ·) left right

/-- The text, `count` times over, if the length of that is a word and within the limit. -/
def repeatText (s : String) (count : Int) : Attempt Fault Value :=
  match checkedProduct s.utf8ByteSize count.toNat with
  | some length =>
      if length ≤ maxRepeatBytes then
        pure (.text (if s.isEmpty then "" else String.join (List.replicate count.toNat s)))
      else throw .repetitionTooLarge
  | none => throw .repetitionTooLarge

/-- A text is repeated, numbers are multiplied. -/
def multiply (left right : Value) : Attempt Fault Value :=
  let product := arithmetic .multiply (· * ·) (· * ·) left right
  match left, right with
  | .text s, .int n => if fitsInt64 n then repeatText s n else product
  | .int n, .text s => if fitsInt64 n then repeatText s n else product
  | _, _ => product

/-- The value of an operator on two values. -/
def applyBinary : BinaryOp → Value → Value → Attempt Fault Value
  | .add, l, r => add l r
  | .subtract, l, r => arithmetic .subtract (· - ·) (· - ·) l r
  | .multiply, l, r => multiply l r
  | .floorDivide, l, r => floorDivide l r
  | .modulo, l, r => floorModulo l r
  | op, l, r => settle (Tabletop.applyBinary op l r)

section Operators

theorem orRounded_asInt64 (n : Int) (x : Float) : orRounded (asInt64 n) x = exactOr n x := by
  unfold asInt64 exactOr
  by_cases fits : fitsInt64 n = true
  · rw [if_pos fits, if_pos fits]
    rfl
  · rw [if_neg fits, if_neg fits]
    rfl

/-- The operands of arithmetic on whole numbers are signed words. -/
theorem fits_of_numeric? {v : Value} {n : Int} (h : v.numeric? = some (.int n)) :
    fitsInt64 n = true := by
  cases v with
  | int m =>
    rw [Value.numeric?] at h
    split at h
    · cases h
      assumption
    · cases h
  | bool flag =>
    cases flag <;> cases h <;> decide
  | float x => cases h
  | null => cases h
  | text s => cases h
  | list items => cases h
  | mapping fields => cases h

theorem numeric?_of_numericPair {op : BinaryOp} {left right : Value} {a b : Numeric}
    (h : numericPair op left right = .ok (a, b)) :
    left.numeric? = some a ∧ right.numeric? = some b := by
  unfold numericPair at h
  split at h
  · cases h
    exact ⟨by assumption, by assumption⟩
  · cases h

/-- What the machine does with two numbers is done with the numbers that the operands are. -/
theorem settle_numericPair {op : BinaryOp} {left right : Value}
    {k : Numeric × Numeric → Except Fault Value} {n : Numeric × Numeric → Attempt Fault Value}
    (same : ∀ a b, left.numeric? = some a → right.numeric? = some b →
      n (a, b) = settle (k (a, b))) :
    (settle (numericPair op left right) >>= n) = settle (numericPair op left right >>= k) := by
  cases pair : numericPair op left right with
  | error fault => rfl
  | ok p =>
    obtain ⟨a, b⟩ := p
    obtain ⟨ha, hb⟩ := numeric?_of_numericPair pair
    exact same a b ha hb

theorem arithmetic_eq (op : BinaryOp) (exact : Int → Int → Int) (rounded : Float → Float → Float)
    (left right : Value) :
    arithmetic op exact rounded left right
      = settle (Tabletop.arithmetic op exact rounded left right) := by
  rw [Tabletop.arithmetic, arithmetic]
  refine settle_numericPair fun a b _ _ => ?_
  cases a with
  | int m =>
    cases b with
    | int n => exact congrArg pure (orRounded_asInt64 _ _)
    | float y => rfl
  | float x => cases b <;> rfl

theorem negate_eq (v : Value) : negate v = settle (Tabletop.negate v) := by
  unfold negate Tabletop.negate
  cases v.numeric? with
  | none => rfl
  | some a =>
    cases a with
    | int n =>
      dsimp only
      rw [orRounded_asInt64]
      rfl
    | float x => rfl

theorem ne_zero_of_toFloat {n : Int} (h : ¬ ((Numeric.int n).toFloat == 0) = true) : n ≠ 0 := by
  rintro rfl
  exact h (by decide +kernel)

theorem floorDivide_eq (left right : Value) :
    floorDivide left right = settle (Tabletop.floorDivide left right) := by
  rw [Tabletop.floorDivide, floorDivide]
  refine settle_numericPair fun a b dividend _ => ?_
  dsimp only
  by_cases zero : (b.toFloat == 0) = true
  · rw [if_pos zero, if_pos zero]
    rfl
  · rw [if_neg zero, if_neg zero]
    cases a with
    | float x => cases b <;> rfl
    | int m =>
      cases b with
      | float y => rfl
      | int n =>
        have quotient := floorQuotient_eq (fits_of_numeric? dividend) (ne_zero_of_toFloat zero)
        dsimp only
        rw [lift_bind quotient, orRounded_asInt64]
        rfl

theorem floorModulo_eq (left right : Value) :
    floorModulo left right = settle (Tabletop.floorModulo left right) := by
  rw [Tabletop.floorModulo, floorModulo]
  refine settle_numericPair fun a b dividend divisor => ?_
  dsimp only
  by_cases zero : (b.toFloat == 0) = true
  · rw [if_pos zero, if_pos zero]
    rfl
  · rw [if_neg zero, if_neg zero]
    cases a with
    | float x => cases b <;> rfl
    | int m =>
      cases b with
      | float y => rfl
      | int n =>
        have remainder := floorRemainder_eq (fits_of_numeric? dividend)
          (fits_of_numeric? divisor) (ne_zero_of_toFloat zero)
        dsimp only
        rw [lift_bind remainder]
        rfl

/-- A product beyond the words is beyond the limit too. -/
theorem repeatText_eq (s : String) (count : Int) :
    repeatText s count = settle (Tabletop.repeatText s count) := by
  unfold repeatText Tabletop.repeatText checkedProduct
  by_cases fits : s.utf8ByteSize * count.toNat < wordBound
  · rw [if_pos fits]
    dsimp only
    split <;> rfl
  · have large : ¬ s.utf8ByteSize * count.toNat ≤ maxRepeatBytes := by
      unfold wordBound at fits
      unfold maxRepeatBytes
      omega
    rw [if_neg fits, if_neg large]
    rfl

theorem add_eq (left right : Value) : add left right = settle (Tabletop.add left right) := by
  cases left with
  | text a =>
    cases right with
    | text b => rfl
    | _ => exact arithmetic_eq _ _ _ _ _
  | list a =>
    cases right with
    | list b => rfl
    | _ => exact arithmetic_eq _ _ _ _ _
  | _ => exact arithmetic_eq _ _ _ _ _

/-- A text is repeated a number of times that is a signed word. -/
theorem repeated_or_product (s : String) (n : Int) (left right : Value) :
    (if fitsInt64 n then repeatText s n else arithmetic .multiply (· * ·) (· * ·) left right)
      = settle (if fitsInt64 n then Tabletop.repeatText s n
          else Tabletop.arithmetic .multiply (· * ·) (· * ·) left right) := by
  split
  · exact repeatText_eq s n
  · exact arithmetic_eq _ _ _ _ _

theorem multiply_eq (left right : Value) :
    multiply left right = settle (Tabletop.multiply left right) := by
  cases left with
  | text s =>
    cases right with
    | int n => exact repeated_or_product s n _ _
    | _ => exact arithmetic_eq _ _ _ _ _
  | int n =>
    cases right with
    | text s => exact repeated_or_product s n _ _
    | _ => exact arithmetic_eq _ _ _ _ _
  | _ => exact arithmetic_eq _ _ _ _ _

/-- The operators have the results that they have on unbounded numbers. -/
theorem applyBinary_eq (op : BinaryOp) (left right : Value) :
    applyBinary op left right = settle (Tabletop.applyBinary op left right) := by
  cases op with
  | add => exact add_eq left right
  | subtract => exact arithmetic_eq _ _ _ _ _
  | multiply => exact multiply_eq left right
  | floorDivide => exact floorDivide_eq left right
  | modulo => exact floorModulo_eq left right
  | _ => rfl

end Operators

/-! ## §4 Numbers and repetitions -/

/-- The value is no text, list or mapping. -/
inductive Plain : Value → Prop
  | null : Plain .null
  | bool (flag : Bool) : Plain (.bool flag)
  | int (n : Int) : Plain (.int n)
  | float (x : Float) : Plain (.float x)

theorem plain_ofFloat (x : Float) : Plain (.ofFloat x) := by
  unfold Value.ofFloat
  split
  · exact .float x
  · exact .null

theorem plain_exactOr (n : Int) (x : Float) : Plain (exactOr n x) := by
  unfold exactOr
  split
  · exact .int n
  · exact plain_ofFloat x

section Results

variable {left right v : Value}

/-- Where arithmetic has a result, it goes on with two numbers. -/
theorem exists_of_numericPair {op : BinaryOp} {k : Numeric × Numeric → Except Fault Value}
    (h : (numericPair op left right >>= k) = .ok v) : ∃ a b, k (a, b) = .ok v := by
  cases pair : numericPair op left right with
  | error fault =>
    rw [pair] at h
    cases h
  | ok p =>
    rw [pair] at h
    exact ⟨p.1, p.2, h⟩

theorem plain_arithmetic {op : BinaryOp} {exact : Int → Int → Int}
    {rounded : Float → Float → Float}
    (h : Tabletop.arithmetic op exact rounded left right = .ok v) : Plain v := by
  unfold Tabletop.arithmetic at h
  obtain ⟨a, b, h⟩ := exists_of_numericPair h
  dsimp only at h
  split at h
  · cases h
    exact plain_exactOr _ _
  · cases h
    exact plain_ofFloat _

theorem plain_divide (h : Tabletop.divide left right = .ok v) : Plain v := by
  unfold Tabletop.divide at h
  obtain ⟨a, b, h⟩ := exists_of_numericPair h
  dsimp only at h
  split at h
  · cases h
  · cases h
    exact plain_ofFloat _

theorem plain_floorDivide (h : Tabletop.floorDivide left right = .ok v) : Plain v := by
  unfold Tabletop.floorDivide at h
  obtain ⟨a, b, h⟩ := exists_of_numericPair h
  dsimp only at h
  split at h
  · cases h
  · split at h
    · cases h
      exact plain_exactOr _ _
    · cases h
      exact plain_ofFloat _

theorem plain_floorModulo (h : Tabletop.floorModulo left right = .ok v) : Plain v := by
  unfold Tabletop.floorModulo at h
  obtain ⟨a, b, h⟩ := exists_of_numericPair h
  dsimp only at h
  split at h
  · cases h
  · split at h
    · cases h
      exact .int _
    · cases h
      exact plain_ofFloat _

theorem plain_negate (h : Tabletop.negate v = .ok left) : Plain left := by
  unfold Tabletop.negate at h
  split at h
  · cases h
    exact plain_exactOr _ _
  · cases h
    exact plain_ofFloat _
  · cases h

theorem utf8ByteSize_repeated (s : String) (times : Nat) :
    (String.join (List.replicate times s)).utf8ByteSize = s.utf8ByteSize * times := by
  induction times with
  | zero => rfl
  | succ times ih =>
    rw [List.replicate_succ, String.join_cons, String.utf8ByteSize_append, ih, Nat.mul_succ,
      Nat.add_comm]

theorem repeatText_limited {s : String} {count : Int}
    (h : Tabletop.repeatText s count = .ok v) :
    ∃ text, v = .text text ∧ text.utf8ByteSize ≤ maxRepeatBytes := by
  unfold Tabletop.repeatText at h
  dsimp only at h
  split at h
  · rename_i short
    cases h
    refine ⟨_, rfl, ?_⟩
    split
    · exact Nat.zero_le _
    · rw [utf8ByteSize_repeated]
      exact short
  · cases h

/-- A product is a number, or a text within the limit. -/
theorem multiply_cases (h : Tabletop.multiply left right = .ok v) :
    Plain v ∨ ∃ text, v = .text text ∧ text.utf8ByteSize ≤ maxRepeatBytes := by
  unfold Tabletop.multiply at h
  dsimp only at h
  split at h
  · split at h
    · exact .inr (repeatText_limited h)
    · exact .inl (plain_arithmetic h)
  · split at h
    · exact .inr (repeatText_limited h)
    · exact .inl (plain_arithmetic h)
  · exact .inl (plain_arithmetic h)

/-- The value of an operator is a joined text or list, a repeated text, or plain. -/
theorem applyBinary_cases {op : BinaryOp} (h : Tabletop.applyBinary op left right = .ok v) :
    Plain v ∨ (∃ text, v = .text text)
      ∨ ∃ a b, left = .list a ∧ right = .list b ∧ v = .list (a ++ b) := by
  have flag {r : Except Fault Bool} {f : Bool → Bool} (h : r.map (fun b => .bool (f b)) = .ok v) :
      Plain v := by
    cases r with
    | error fault => cases h
    | ok b => cases h; exact .bool _
  have order {r : Except Fault Ordering} {f : Ordering → Bool}
      (h : r.map (fun o => .bool (f o)) = .ok v) : Plain v := by
    cases r with
    | error fault => cases h
    | ok o => cases h; exact .bool _
  cases op with
  | add =>
    change Tabletop.add left right = .ok v at h
    unfold Tabletop.add at h
    split at h
    · cases h; exact .inr (.inl ⟨_, rfl⟩)
    · cases h; exact .inr (.inr ⟨_, _, rfl, rfl, rfl⟩)
    · exact .inl (plain_arithmetic h)
  | subtract => exact .inl (plain_arithmetic h)
  | multiply =>
    obtain plain | ⟨text, rfl, -⟩ := multiply_cases h
    · exact .inl plain
    · exact .inr (.inl ⟨text, rfl⟩)
  | divide => exact .inl (plain_divide h)
  | floorDivide => exact .inl (plain_floorDivide h)
  | modulo => exact .inl (plain_floorModulo h)
  | concat => cases h; exact .inr (.inl ⟨_, rfl⟩)
  | equal => cases h; exact .inl (.bool _)
  | notEqual => cases h; exact .inl (.bool _)
  | less => exact .inl (order h)
  | lessEqual => exact .inl (order h)
  | greater => exact .inl (order h)
  | greaterEqual => exact .inl (order h)
  | isIn => exact .inl (@flag _ id h)
  | notIn => exact .inl (flag h)

end Results

end Machine

end Tabletop
