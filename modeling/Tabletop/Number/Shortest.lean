/-
Tabletop.Number.Shortest — the fewest decimal digits that read back.

The reals that round to a given double form an interval: from halfway to
the neighbour below to halfway to the neighbour above, ends included
exactly when the mantissa is even. `readsBack` is that interval test in
exact arithmetic. `shortest` looks at the grids 10^(k-1), 10^(k-2), …
below the leading digit and takes the first grid one of whose two points
around the value reads back; of two such points the nearer, and on a tie
the one the caller asks for.
-/
import Tabletop.Number.Binary64

namespace Tabletop

/-- The number `digits · 10^exponent`. -/
structure Decimal where
  digits : Nat
  exponent : Int
  deriving DecidableEq, Repr

/-- Which of two equally near decimals of one length is taken. -/
inductive Tie where
  | toEven
  | awayFromZero
  deriving DecidableEq, Repr

namespace Binary64

/-- Compares `a · 10^i` with `n · 2^j`, exactly. -/
def compareScaled (a : Nat) (i : Int) (n : Nat) (j : Int) : Ordering :=
  compare (a * Nat.pow 10 i.toNat * Nat.pow 2 (-j).toNat)
    (n * Nat.pow 2 j.toNat * Nat.pow 10 (-i).toNat)

/-- The magnitude `d` lies among the reals that round to the magnitude of `x`. -/
def readsBack (x : Binary64) (d : Decimal) : Bool :=
  let low := if x.narrowBelow then 4 * x.mantissa - 1 else 4 * x.mantissa - 2
  let high := 4 * x.mantissa + 2
  let endsIncluded := x.mantissa % 2 = 0
  let toLow := compareScaled d.digits d.exponent low (x.exponent - 2)
  let toHigh := compareScaled d.digits d.exponent high (x.exponent - 2)
  (toLow = .gt || (endsIncluded && toLow = .eq)) && (toHigh = .lt || (endsIncluded && toHigh = .eq))

/-- The magnitude of `x` is below `10^k`. -/
def belowPower (x : Binary64) (k : Int) : Bool :=
  compareScaled 1 k x.mantissa x.exponent = .gt

/-- The least `k` with the magnitude of `x` below `10^k`. The first guess takes 0.30103 decimal
digits for each binary one and is at most two too small. -/
def scale (x : Binary64) : Int :=
  let guess := ((x.mantissa.log2 : Int) + x.exponent) * 30103 / 100000
  if x.belowPower guess then guess
  else if x.belowPower (guess + 1) then guess + 1
  else guess + 2

/-- The magnitude of `x` in units of `10^unit`, rounded down. -/
def unitsBelow (x : Binary64) (unit : Int) : Nat :=
  x.mantissa * Nat.pow 2 x.exponent.toNat * Nat.pow 10 (-unit).toNat
    / (Nat.pow 2 (-x.exponent).toNat * Nat.pow 10 unit.toNat)

/-- The point of the grid `10^unit` that reads back and is nearest to `x`, if there is one. -/
def pointOnGrid (tie : Tie) (x : Binary64) (unit : Int) : Option Decimal :=
  let below := x.unitsBelow unit
  let lower : Decimal := ⟨below, unit⟩
  let upper : Decimal := ⟨below + 1, unit⟩
  match x.readsBack lower, x.readsBack upper with
  | false, false => none
  | true, false => some lower
  | false, true => some upper
  | true, true =>
      match compareScaled (2 * below + 1) unit (2 * x.mantissa) x.exponent with
      | .gt => some lower
      | .lt => some upper
      | .eq =>
          match tie with
          | .toEven => if below % 2 = 0 then some lower else some upper
          | .awayFromZero => some upper

/-- The exact value of the magnitude of `x`. -/
def exactDecimal (x : Binary64) : Decimal :=
  let places := (-x.exponent).toNat
  ⟨x.mantissa * Nat.pow 2 x.exponent.toNat * Nat.pow 5 places, -(places : Int)⟩

end Binary64

/-- The same number without trailing zeros in its digits; `steps` bounds how many are dropped. -/
def Decimal.stripped : (steps : Nat) → Decimal → Decimal
  | 0, d => d
  | steps + 1, d =>
      if d.digits ≠ 0 && d.digits % 10 = 0 then
        Decimal.stripped steps ⟨d.digits / 10, d.exponent + 1⟩
      else d

/-- The fewest digits that read back as the magnitude of the nonzero `x`, and the nearest such
number. -/
def Binary64.shortest (tie : Tie) (x : Binary64) : Decimal :=
  let k := x.scale
  let found := (List.range 17).findSome? fun n => x.pointOnGrid tie (k - (n + 1 : Nat))
  match found with
  | some d => d.stripped 20
  | none => x.exactDecimal

end Tabletop
