/-
Tabletop.Number.Reading — numbers written in texts.

Integers have an optional sign and ASCII digits, and must fit the range
asked for. Decimals have an optional sign, digits with an optional point
(at least one digit on either side of it), and an optional exponent; or
they are one of the words `inf`, `infinity` and `nan` in any case. A
decimal denotes the double nearest to it, where its exponent is read up to
the digit with which it reaches 65536. Long texts take time in proportion
to their length.
-/

namespace Tabletop

/-! ## §1 Ranges -/

/-- The least signed 64-bit integer. -/
def int64Min : Int := -9223372036854775808

/-- The greatest signed 64-bit integer. -/
def int64Max : Int := 9223372036854775807

/-- One more than the greatest unsigned 64-bit integer. -/
def wordBound : Nat := 18446744073709551616

/-- The integer is a signed 64-bit one. -/
def fitsInt64 (n : Int) : Bool := int64Min ≤ n && n ≤ int64Max

/-- The integer, if it is a signed 64-bit one. -/
def asInt64 (n : Int) : Option Int := if fitsInt64 n then some n else none

theorem fitsInt64_of_asInt64 {n m : Int} (h : asInt64 n = some m) : fitsInt64 m = true := by
  unfold asInt64 at h
  split at h
  · cases h
    assumption
  · cases h

/-! ## §2 Integers -/

/-- The value of a digit. -/
def digitValue (c : Char) : Nat := c.toNat - '0'.toNat

/-- The number that a list of digits denotes. -/
def digitsValue (cs : List Char) : Nat := cs.foldl (fun n c => 10 * n + digitValue c) 0

/-- The number that a list of digits denotes, read until it reaches `limit`: the digits after that
are ignored. -/
def digitsUpTo (limit : Nat) (cs : List Char) : Nat :=
  cs.foldl (fun n c => if n < limit then 10 * n + digitValue c else n) 0

/-- A fold whose steps make a number no smaller ends at no smaller a number. -/
theorem le_foldl_of_le (step : Nat → Char → Nat) (h : ∀ n c, n ≤ step n c) (cs : List Char)
    (start : Nat) : start ≤ cs.foldl step start := by
  induction cs generalizing start with
  | nil => exact Nat.le_refl _
  | cons c cs ih => exact Nat.le_trans (h start c) (ih _)

/-- Below the limit, nothing was ignored. -/
theorem digitsUpTo_eq_iff {limit : Nat} {cs : List Char} {n : Nat} (h : n < limit) :
    digitsUpTo limit cs = n ↔ digitsValue cs = n := by
  unfold digitsUpTo digitsValue
  generalize 0 = start
  induction cs generalizing start with
  | nil => simp
  | cons c cs ih =>
    simp only [List.foldl_cons]
    by_cases hs : start < limit
    · simp only [hs, if_true]
      exact ih _
    · have whole := le_foldl_of_le (fun n c => 10 * n + digitValue c)
        (fun n c => by omega) cs (10 * start + digitValue c)
      have upTo := le_foldl_of_le (fun n c => if n < limit then 10 * n + digitValue c else n)
        (fun n c => by split <;> omega) cs start
      simp only [hs, if_false]
      omega

/-- A nonempty list of digits that denotes a number below 2^64. -/
def readDigits (cs : List Char) : Option Nat :=
  if !cs.isEmpty && cs.all Char.isDigit then (some (digitsUpTo wordBound cs)).filter (· < wordBound)
  else none

/-- Digits with an optional plus sign, below 2^64. -/
def readWord (cs : List Char) : Option Nat :=
  match cs with
  | '+' :: rest => readDigits rest
  | _ => readDigits cs

/-- Digits with an optional sign, in the signed 64-bit range. -/
def readInt64 (cs : List Char) : Option Int :=
  match cs with
  | '+' :: rest => (readDigits rest).bind fun n => asInt64 n
  | '-' :: rest => (readDigits rest).bind fun n => asInt64 (-(n : Int))
  | _ => (readDigits cs).bind fun n => asInt64 n

/-! ## §3 Decimals -/

/-- Positive infinity. -/
def infinity : Float := 1 / 0

/-- The double nearest to `digits · 10^exponent`. Numbers far beyond the range of doubles are
settled by the place of their leading digit, without computing the power. -/
def nearestFloat (digits : Nat) (exponent : Int) : Float :=
  let lead := ((Nat.toDigits 10 digits).length : Int) + exponent
  if digits = 0 then 0
  else if 400 < lead then infinity
  else if lead < -400 then 0
  else Float.ofScientific digits (exponent < 0) exponent.natAbs

/-- More digits than a double can tell apart: a point halfway between two doubles has fewer. -/
def decisiveDigits : Nat := 800

/-- The double nearest to a list of digits times `10^exponent`. Behind the decisive digits, it only
matters whether there is one other than zero. -/
def nearestDecimal (digits : List Char) (exponent : Int) : Float :=
  let written := digits.dropWhile (· = '0')
  let kept := digitsValue (written.take decisiveDigits)
  let beyond := written.drop decisiveDigits
  if beyond.all (· = '0') then nearestFloat kept (exponent + beyond.length)
  else nearestFloat (10 * kept + 1) (exponent + beyond.length - 1)

/-- Where the exponent of a decimal ends: a digit after the one with which it gets here is
ignored. -/
def exponentLimit : Nat := 65536

/-- The digits of an exponent. -/
def readScale (cs : List Char) : Option Nat :=
  if !cs.isEmpty && cs.all Char.isDigit then some (digitsUpTo exponentLimit cs) else none

/-- What follows the digits of a decimal: nothing, or `e` with a whole number. -/
def readExponent : List Char → Option Int
  | [] => some 0
  | c :: rest =>
      if c = 'e' || c = 'E' then
        match rest with
        | '+' :: digits => (readScale digits).map Int.ofNat
        | '-' :: digits => (readScale digits).map fun n => -(n : Int)
        | digits => (readScale digits).map Int.ofNat
      else none

/-- Digits, an optional point with more digits, and an optional exponent. -/
def readMagnitude (cs : List Char) : Option Float :=
  let front := cs.takeWhile Char.isDigit
  let rest := cs.dropWhile Char.isDigit
  let (fraction, tail) := match rest with
    | '.' :: more => (more.takeWhile Char.isDigit, more.dropWhile Char.isDigit)
    | _ => ([], rest)
  let digits := front ++ fraction
  if digits.isEmpty then none
  else (readExponent tail).map fun e => nearestDecimal digits (e - fraction.length)

/-- The words for values that have no digits. -/
def readSpecial (cs : List Char) : Option Float :=
  let word := String.ofList (cs.map Char.toLower)
  if word = "inf" || word = "infinity" then some infinity
  else if word = "nan" then some (0 / 0)
  else none

/-- A decimal with an optional sign. -/
def readFloat (cs : List Char) : Option Float :=
  let unsigned (body : List Char) := readMagnitude body <|> readSpecial body
  match cs with
  | '+' :: rest => unsigned rest
  | '-' :: rest => (unsigned rest).map fun x => -x
  | _ => unsigned cs

end Tabletop
