/-
Tabletop.Number.Binary64 — finite doubles as exact numbers.

A finite double is ± m · 2^q with m and q integers. Rounding to a whole
number, truncating, and choosing the decimal digits of a value are all
questions about that exact number, so they are answered here in `Nat` and
`Int` arithmetic, with no rounding anywhere.

  §1 Parts      — decoding the 64 bits.
  §2 Whole part — floor, truncation, rounding half away from zero.
  §3 Powers     — integer powers by repeated squaring, in double arithmetic.
-/

namespace Tabletop

/-! ## §1 Parts -/

/-- A finite double: `(-1)^negative · mantissa · 2^exponent`. -/
structure Binary64 where
  negative : Bool
  mantissa : Nat
  exponent : Int
  /-- The gap to the next smaller magnitude is half the gap to the next larger one. -/
  narrowBelow : Bool
  deriving DecidableEq, Repr

namespace Binary64

/-- The parts of a finite double. NaN and the infinities have none; callers
exclude them first. -/
def ofFloat (x : Float) : Binary64 :=
  let bits : Nat := x.toBits.toNat
  let fraction : Nat := bits % Nat.pow 2 52
  let biased : Nat := bits / Nat.pow 2 52 % Nat.pow 2 11
  let negative := decide (Nat.pow 2 63 ≤ bits)
  if biased = 0 then ⟨negative, fraction, -1074, false⟩
  else ⟨negative, Nat.pow 2 52 + fraction, (biased : Int) - 1075, fraction = 0 && 1 < biased⟩

/-! ## §2 Whole part -/

/-- The magnitude rounded down to a whole number. -/
def whole (x : Binary64) : Nat :=
  x.mantissa * Nat.pow 2 x.exponent.toNat / Nat.pow 2 (-x.exponent).toNat

/-- What `whole` leaves over, in units of `2^exponent`. -/
def leftover (x : Binary64) : Nat :=
  x.mantissa * Nat.pow 2 x.exponent.toNat % Nat.pow 2 (-x.exponent).toNat

/-- The value is a whole number. -/
def isWhole (x : Binary64) : Bool := x.leftover = 0

/-- The value without its fraction. -/
def truncated (x : Binary64) : Int :=
  if x.negative then -(x.whole : Int) else x.whole

/-- The magnitude of the floor: away from zero only for negative values with a fraction. -/
def floorMagnitude (x : Binary64) : Nat :=
  if x.negative && !x.isWhole then x.whole + 1 else x.whole

/-- The magnitude of the nearest whole number; a half goes away from zero. -/
def nearestMagnitude (x : Binary64) : Nat :=
  if Nat.pow 2 (-x.exponent).toNat ≤ 2 * x.leftover then x.whole + 1 else x.whole

/-- A whole magnitude with the sign of `x`; a zero keeps the sign. -/
def withMagnitude (x : Binary64) (n : Nat) : Float :=
  if x.negative then -(Float.ofNat n) else Float.ofNat n

end Binary64

/-- The greatest whole double that is not above `x`; NaN and the infinities are unchanged. -/
def floorFloat (x : Float) : Float :=
  if x.isFinite then
    let parts := Binary64.ofFloat x
    parts.withMagnitude parts.floorMagnitude
  else x

/-- The whole double nearest to `x`, halves away from zero; NaN and the infinities are unchanged. -/
def roundFloat (x : Float) : Float :=
  if x.isFinite then
    let parts := Binary64.ofFloat x
    parts.withMagnitude parts.nearestMagnitude
  else x

/-- `x` is finite and has no fraction. -/
def isWholeFloat (x : Float) : Bool :=
  x.isFinite && (Binary64.ofFloat x).isWhole

/-- The nearest integer between `low` and `high`. -/
def clampInt (low high n : Int) : Int :=
  if n < low then low else if high < n then high else n

/-- `x` without its fraction as an integer between `low` and `high`: values outside go to
the nearer end, and NaN to zero. -/
def truncateFloat (low high : Int) (x : Float) : Int :=
  if x.isNaN then 0
  else if x.isFinite then clampInt low high (Binary64.ofFloat x).truncated
  else if x < 0 then low
  else high

/-! ## §3 Powers -/

/-- `base^exponent` by repeated squaring, one rounding per product; `steps` bounds the number of
binary digits of `exponent` that are used. -/
def powerLoop : (steps : Nat) → (acc base : Float) → (exponent : Nat) → Float
  | 0, acc, _, _ => acc
  | steps + 1, acc, base, exponent =>
      let acc := if exponent % 2 = 1 then acc * base else acc
      if exponent / 2 = 0 then acc else powerLoop steps acc (base * base) (exponent / 2)

/-- `base^exponent` in double arithmetic; a negative power is the reciprocal of the positive one. -/
def powerFloat (base : Float) (exponent : Int) : Float :=
  let power := powerLoop 64 1 base exponent.natAbs
  if exponent < 0 then 1 / power else power

end Tabletop
