/-
Tabletop.Number.Layout — how numbers are written.

Two layouts of a double are in use. In values it is positional while the
leading digit stands at 10^-5 … 10^15, always with a fraction, and
scientific with a signed exponent otherwise. In the reports about an
expression it is positional throughout and has no empty fraction.
-/
import Tabletop.Number.Shortest

namespace Tabletop

/-- The decisions of a layout of doubles. -/
structure FloatLayout where
  /-- Leading-digit exponents written positionally, first and last; none means all of them. -/
  positional : Option (Int × Int)
  /-- A whole number gets the fraction `.0`. -/
  pointZero : Bool
  tie : Tie
  deriving DecidableEq, Repr

/-- Doubles in values: `100.0`, `0.00001`, `1e+16`, `1.5e-7`. -/
def FloatLayout.value : FloatLayout := ⟨some (-5, 15), true, .toEven⟩

/-- Doubles in reports about an expression: `100`, `0.0000001`. -/
def FloatLayout.report : FloatLayout := ⟨none, false, .awayFromZero⟩

/-- Decimal digits of a natural number, most significant first. -/
def natDigits (n : Nat) : List Char := Nat.toDigits 10 n

/-- Decimal digits of an integer, with a leading minus if it is negative. -/
def intDigits (n : Int) : List Char :=
  if n < 0 then '-' :: natDigits n.natAbs else natDigits n.natAbs

/-- An integer in decimal. -/
def intText (n : Int) : String := String.ofList (intDigits n)

/-- A natural number in decimal. -/
def natText (n : Nat) : String := String.ofList (natDigits n)

namespace FloatLayout

/-- The digits with the point where the exponent `lead` of the first digit puts it. -/
def positionalText (layout : FloatLayout) (digits : List Char) (lead : Int) : List Char :=
  if lead < 0 then '0' :: '.' :: (List.replicate (-lead - 1).toNat '0' ++ digits)
  else
    let before := lead.toNat + 1
    if digits.length ≤ before then
      digits ++ List.replicate (before - digits.length) '0'
        ++ (if layout.pointZero then ['.', '0'] else [])
    else digits.take before ++ '.' :: digits.drop before

/-- One digit, the rest as a fraction, and the exponent with its sign. -/
def scientificText (digits : List Char) (lead : Int) : List Char :=
  let fraction := if digits.length ≤ 1 then [] else '.' :: digits.drop 1
  digits.take 1 ++ fraction ++ 'e' :: (if lead < 0 then '-' else '+') :: natDigits lead.natAbs

/-- The magnitude `digits · 10^exponent`, laid out. -/
def magnitudeText (layout : FloatLayout) (d : Decimal) : List Char :=
  let digits := natDigits d.digits
  let lead : Int := d.exponent + digits.length - 1
  match layout.positional with
  | none => layout.positionalText digits lead
  | some (first, last) =>
      if first ≤ lead && lead ≤ last then layout.positionalText digits lead
      else scientificText digits lead

/-- A finite double in this layout. -/
def render (layout : FloatLayout) (x : Float) : List Char :=
  let parts := Binary64.ofFloat x
  let magnitude :=
    if parts.mantissa = 0 then ⟨0, 0⟩ else parts.shortest layout.tie
  let text := layout.magnitudeText magnitude
  if parts.negative then '-' :: text else text

end FloatLayout

end Tabletop
