/-
Tabletop.Proofs.Model.Range — which whole numbers a range accepts.

A range holds its bounds as doubles, and a whole number is compared with them
as one. Up to 53 bits that is the number itself. Beyond, several numbers
become one double, and a range does not tell them apart: it accepts what is
on the right side of each bound, and what shares the bound's double on the
wrong side of it (`range_accepts_iff`).

  §1 Bounds        — what is written on the sides of a range.
  §2 Between them  — whole numbers as doubles.
-/
import Tabletop.Proofs.Number.Nearest
import Tabletop.Proofs.Table
import Tabletop.Model.Constraint

namespace Tabletop

variable {cs low high : List Char} {l h : Option Int} {b n : Int} {x y : Float}

/-! ## §1 Bounds -/

/-- What is written on one side of a range: a whole number with blanks around it, or nothing but
blanks. -/
inductive RangeSide : List Char → Option Int → Prop
  | blank {cs : List Char} (each : ∀ c ∈ cs, isBlank c = true) : RangeSide cs none
  | bound {cs : List Char} {b : Int} (padded : Padded cs b) : RangeSide cs (some b)

/-- There are no dots in a number with blanks around it. -/
theorem Written.no_dot (written : Written cs n) : '.' ∉ cs := by
  have digits : ∀ {ds : List Char}, (∀ c ∈ ds, c.isDigit = true) → '.' ∉ ds :=
    fun each dot => absurd (each _ dot) (by decide)
  cases written with
  | plain _ each => exact digits each
  | plus _ each => exact List.not_mem_cons_of_ne_of_not_mem (by decide) (digits each)
  | minus _ each => exact List.not_mem_cons_of_ne_of_not_mem (by decide) (digits each)

theorem RangeSide.no_dot (side : RangeSide cs l) : '.' ∉ cs := by
  have blank : ∀ {bs : List Char}, (∀ c ∈ bs, isBlank c = true) → '.' ∉ bs :=
    fun each dot => absurd (each _ dot) (by decide)
  cases side with
  | blank each => exact blank each
  | bound padded =>
    cases padded with
    | intro before after written =>
      simp only [List.mem_append, not_or]
      exact ⟨⟨blank before, written.no_dot⟩, blank after⟩

/-- The sides of a range are what stands before and behind its dots. -/
theorem splitDots_of_no_dot (plain : '.' ∉ low) (high : List Char) :
    splitDots (low ++ '.' :: '.' :: high) = some (low, high) := by
  induction low with
  | nil => rfl
  | cons c low ih =>
    rw [List.mem_cons, not_or] at plain
    have first : splitDots (c :: (low ++ '.' :: '.' :: high))
        = (splitDots (low ++ '.' :: '.' :: high)).map fun sides => (c :: sides.1, sides.2) := by
      rw [splitDots]
      rintro rest rfl
      exact absurd rfl plain.1
    rw [List.cons_append, first, ih plain.2]
    rfl

/-- A double that stands for the number that a whole number becomes. -/
def StandsFor (x : Float) (b : Int) : Prop :=
  x.isFinite = true ∧ (Binary64.ofFloat x).toRat = rounded b

theorem standsFor_ofInt (word : b.natAbs < wordBound) : StandsFor (Float.ofInt b) b :=
  ⟨(modest_ofInt word).isFinite, rfl⟩

/-- Both zeros stand for zero. -/
theorem standsFor_negative_zero : StandsFor (-(Float.ofInt 0)) 0 := by
  refine ⟨rfl, ?_⟩
  rw [Binary64.toRat_ofFloat rfl, rounded, Binary64.toRat_ofFloat rfl]
  rfl

/-- A bound is read as a double that stands for it. -/
theorem RangeSide.readBound (side : RangeSide cs l) (word : ∀ b ∈ l, b.natAbs < wordBound) :
    Option.Rel StandsFor (Tabletop.readBound cs) l := by
  unfold Tabletop.readBound
  cases side with
  | blank each =>
    have nothing : trimChars cs = [] := by
      rw [trimChars, trimWhile, List.dropWhile_eq_nil_iff.mpr each]
      rfl
    rw [nothing]
    exact .none
  | @bound b padded =>
    cases padded with
    | intro before after written =>
      rw [written.trimChars_between before after]
      rcases readFloat_written written with plain | ⟨rfl, negative⟩
      · rw [plain]
        exact .some (standsFor_ofInt (word b rfl))
      · rw [negative]
        exact .some standsFor_negative_zero

/-! ## §2 Between them -/

theorem StandsFor.lt_iff (hx : StandsFor x b) (hy : StandsFor y n) : x < y ↔ rounded b < rounded n := by
  rw [float_lt_iff_toRat_lt hx.1 hy.1, hx.2, hy.2]

/-- Outside the bounds is what becomes less than the lower or more than the upper one. -/
theorem outsideBounds_eq_false_iff {lower upper : Option Float}
    (hl : Option.Rel StandsFor lower l) (hh : Option.Rel StandsFor upper h) (hx : StandsFor x n) :
    outsideBounds lower upper x = false ↔
      (∀ b ∈ l, rounded b ≤ rounded n) ∧ ∀ b ∈ h, rounded n ≤ rounded b := by
  unfold outsideBounds
  rw [Bool.or_eq_false_iff]
  refine and_congr ?_ ?_
  · cases hl with
    | none => simp
    | some hb => simp [hx.lt_iff hb]
  · cases hh with
    | none => simp
    | some hb => simp [hb.lt_iff hx]

theorem natAbs_le_of_fits (word : fitsInt64 n = true) : n.natAbs ≤ 2 ^ 63 := by
  have bounds : int64Min ≤ n ∧ n ≤ int64Max := by simpa [fitsInt64] using word
  unfold int64Min int64Max at bounds
  omega

theorem natAbs_lt_of_fits (word : fitsInt64 n = true) : n.natAbs < wordBound :=
  Nat.lt_of_le_of_lt (natAbs_le_of_fits word) (by decide)

/-- Numbers are in the order of their doubles, unless they share one. -/
theorem rounded_le_iff (hb : b.natAbs < wordBound) (hn : n.natAbs < wordBound) :
    rounded b ≤ rounded n ↔ b ≤ n ∨ rounded b = rounded n := by
  constructor
  · intro le
    rcases Int.le_total b n with right | wrong
    · exact Or.inl right
    · exact Or.inr (le_antisymm le (rounded_mono hn hb wrong))
  · rintro (right | same)
    · exact rounded_mono hb hn right
    · exact same.le

/-- Numbers that share a double are long and near to each other. -/
theorem near_of_rounded_eq (hb : fitsInt64 b = true) (hn : fitsInt64 n = true)
    (same : rounded b = rounded n) (other : b ≠ n) :
    2 ^ 53 ≤ b.natAbs ∧ 2 ^ 53 ≤ n.natAbs ∧ (b - n).natAbs ≤ 1024 := by
  have wordb := natAbs_lt_of_fits hb
  have wordn := natAbs_lt_of_fits hn
  have longb : 2 ^ 53 ≤ b.natAbs :=
    Nat.le_of_not_lt fun small => other (eq_of_rounded_eq wordb wordn small same)
  have longn : 2 ^ 53 ≤ n.natAbs :=
    Nat.le_of_not_lt fun small => other (eq_of_rounded_eq wordn wordb small same.symm).symm
  rw [rounded_eq wordb, rounded_eq wordn, Int.cast_inj] at same
  have nearb := nearestInt_within (natAbs_le_of_fits hb)
  have nearn := nearestInt_within (natAbs_le_of_fits hn)
  omega

/-- A whole number is accepted exactly if it is on the right side of each bound, as a double. -/
theorem rangeViolation_of_sides (path : Path) (hl : RangeSide low l) (hh : RangeSide high h)
    (wordl : ∀ b ∈ l, b.natAbs < wordBound) (wordh : ∀ b ∈ h, b.natAbs < wordBound)
    (wordn : n.natAbs < wordBound) :
    rangeViolation path (String.ofList (low ++ '.' :: '.' :: high)) (.int n) = [] ↔
      (∀ b ∈ l, rounded b ≤ rounded n) ∧ ∀ b ∈ h, rounded n ≤ rounded b := by
  rw [← outsideBounds_eq_false_iff (hl.readBound wordl) (hh.readBound wordh) (standsFor_ofInt wordn),
    rangeViolation, String.toList_ofList, splitDots_of_no_dot hl.no_dot]
  dsimp only [Value.asFloat?]
  cases outsideBounds (readBound low) (readBound high) (Float.ofInt n) <;> simp

/-- A range accepts a whole number exactly if it is on the right side of each bound or shares its
double; and numbers that share a double have more than 53 bits and are at most 1024 apart. So the
range is exact for every number, and with all bounds, below 2^53. -/
theorem range_accepts_iff (path : Path) (hl : RangeSide low l) (hh : RangeSide high h)
    (wordl : ∀ b ∈ l, fitsInt64 b = true) (wordh : ∀ b ∈ h, fitsInt64 b = true)
    (wordn : fitsInt64 n = true) :
    (rangeViolation path (String.ofList (low ++ '.' :: '.' :: high)) (.int n) = [] ↔
      (∀ b ∈ l, b ≤ n ∨ rounded b = rounded n) ∧ ∀ b ∈ h, n ≤ b ∨ rounded b = rounded n) ∧
    (∀ b, fitsInt64 b = true → rounded b = rounded n → b ≠ n →
      2 ^ 53 ≤ b.natAbs ∧ 2 ^ 53 ≤ n.natAbs ∧ (b - n).natAbs ≤ 1024) ∧
    (n.natAbs < 2 ^ 53 ∨ (∀ b ∈ l, b.natAbs < 2 ^ 53) ∧ (∀ b ∈ h, b.natAbs < 2 ^ 53) →
      (rangeViolation path (String.ofList (low ++ '.' :: '.' :: high)) (.int n) = [] ↔
        (∀ b ∈ l, b ≤ n) ∧ ∀ b ∈ h, n ≤ b)) := by
  have shared : ∀ b, fitsInt64 b = true → rounded b = rounded n → b ≠ n →
      2 ^ 53 ≤ b.natAbs ∧ 2 ^ 53 ≤ n.natAbs ∧ (b - n).natAbs ≤ 1024 :=
    fun b word => near_of_rounded_eq word wordn
  have accepts : rangeViolation path (String.ofList (low ++ '.' :: '.' :: high)) (.int n) = [] ↔
      (∀ b ∈ l, b ≤ n ∨ rounded b = rounded n) ∧ ∀ b ∈ h, n ≤ b ∨ rounded b = rounded n := by
    have word := natAbs_lt_of_fits wordn
    have words {side : Option Int} (fits : ∀ b ∈ side, fitsInt64 b = true) :
        ∀ b ∈ side, b.natAbs < wordBound := fun b hb => natAbs_lt_of_fits (fits b hb)
    rw [rangeViolation_of_sides path hl hh (words wordl) (words wordh) word]
    refine and_congr (forall₂_congr fun b hb => ?_) (forall₂_congr fun b hb => ?_)
    · exact rounded_le_iff (words wordl b hb) word
    · rw [rounded_le_iff word (words wordh b hb), eq_comm (a := rounded n)]
  refine ⟨accepts, shared, fun short => ?_⟩
  -- where one of the two is short, they share a double only if they are equal
  have alone : ∀ b, fitsInt64 b = true → (n.natAbs < 2 ^ 53 ∨ b.natAbs < 2 ^ 53) →
      rounded b = rounded n → b = n := by
    intro b word either same
    by_contra other
    have long := shared b word same other
    omega
  rw [accepts]
  refine and_congr (forall₂_congr fun b hb => ?_) (forall₂_congr fun b hb => ?_)
  · refine or_iff_left_of_imp fun same => ?_
    exact (alone b (wordl b hb) (short.imp_right fun bounds => bounds.1 b hb) same).le
  · refine or_iff_left_of_imp fun same => ?_
    exact (alone b (wordh b hb) (short.imp_right fun bounds => bounds.2 b hb) same).ge

/-- A range from the least signed word up to twenty accepts its lower bound, and not the number after
its upper one. -/
theorem debts_in_range :
    (RangeSide (intDigits int64Min ++ [' ']) (some int64Min) ∧
      RangeSide (' ' :: intDigits 20) (some 20)) ∧
    rangeViolation ["debts"] "-9223372036854775808 .. 20" (.int int64Min) = [] ∧
      rangeViolation ["debts"] "-9223372036854775808 .. 20" (.int 21) ≠ [] := by
  have space : ∀ c ∈ [' '], isBlank c = true := List.forall_mem_singleton.mpr (by decide)
  have low : RangeSide (intDigits int64Min ++ [' ']) (some int64Min) := by
    have padded : Padded ([] ++ intDigits int64Min ++ [' ']) int64Min :=
      .intro (by simp) space (written_intDigits _)
    rw [List.nil_append] at padded
    exact .bound padded
  have high : RangeSide (' ' :: intDigits 20) (some 20) := by
    have padded : Padded ([' '] ++ intDigits 20 ++ []) 20 :=
      .intro space (by simp) (written_intDigits _)
    rw [List.append_nil] at padded
    exact .bound padded
  have range : "-9223372036854775808 .. 20" = String.ofList
      (intDigits int64Min ++ [' '] ++ '.' :: '.' :: (' ' :: intDigits 20)) := by decide +kernel
  have words (z : Int) (fits : fitsInt64 z = true) : ∀ b ∈ some z, fitsInt64 b = true := by
    rintro b ⟨⟩
    exact fits
  have accepts (n : Int) (word : fitsInt64 n = true) := range_accepts_iff ["debts"] low high
    (words int64Min (by decide)) (words 20 (by decide)) word
  refine ⟨⟨low, high⟩, ?_, ?_⟩
  · rw [range, (accepts int64Min (by decide)).1]
    exact ⟨by simp, by simp; decide⟩
  · rw [range, Ne, (accepts 21 (by decide)).2.2 (Or.inl (by decide))]
    simp

/-- The number after 2^53 is accepted by a range that ends at 2^53. -/
theorem score_over_range :
    rangeViolation ["score"] "..9007199254740992" (.int 9007199254740993) = [] ∧
      ¬ (9007199254740993 : Int) ≤ 9007199254740992 := by
  have low : RangeSide [] none := .blank (by simp)
  have digits : Padded ([] ++ intDigits 9007199254740992 ++ []) 9007199254740992 :=
    .intro (by simp) (by simp) (written_intDigits _)
  have range : "..9007199254740992" = String.ofList
      ([] ++ '.' :: '.' :: ([] ++ intDigits 9007199254740992 ++ [])) := by decide +kernel
  have shared : rounded 9007199254740993 = rounded 9007199254740992 := by
    rw [rounded_eq (by decide), rounded_eq (by decide)]
    have same : nearestInt 9007199254740993 = nearestInt 9007199254740992 := by decide +kernel
    rw [same]
  have word : ∀ b ∈ some (9007199254740992 : Int), b.natAbs < wordBound := by
    rintro b ⟨⟩
    decide
  refine ⟨?_, by decide⟩
  rw [range, rangeViolation_of_sides ["score"] low (.bound digits) (by simp) word (by decide)]
  refine ⟨by simp, fun b hb => ?_⟩
  cases hb
  exact shared.le

end Tabletop
