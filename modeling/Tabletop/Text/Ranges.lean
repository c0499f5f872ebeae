/-
Tabletop.Text.Ranges — sets of characters given by ranges of code points.

The character classes beyond ASCII are data of the Unicode standard. They
are kept as ascending lists of inclusive ranges; `inRanges` is membership.
-/

namespace Tabletop

/-- `n` lies in one of the inclusive ranges. -/
def inRanges (ranges : List (Nat × Nat)) (n : Nat) : Bool :=
  ranges.any fun r => r.1 ≤ n && n ≤ r.2

theorem inRanges_eq_true_iff {ranges : List (Nat × Nat)} {n : Nat} :
    inRanges ranges n = true ↔ ∃ r ∈ ranges, r.1 ≤ n ∧ n ≤ r.2 := by
  simp [inRanges]

end Tabletop
