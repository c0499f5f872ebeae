/-
Tabletop.Template.Arithmetic — the binary operators on values.

Truth values count as the numbers 0 and 1. Whole numbers are exact as long
as the result is a signed 64-bit integer; where it is not, and wherever a
double takes part, the operation is done on doubles. `//` and `%` go with
the floor of the quotient. A double that is not finite becomes null.

  §1 Numbers
  §2 Operators on numbers
  §3 Operators on other values
  §4 One operator for all
-/
import Tabletop.Template.Fault
import Tabletop.Number.Binary64
import Tabletop.Value.Text
import Tabletop.Text.Search

namespace Tabletop

/-! ## §1 Numbers -/

/-- A value as an operand of arithmetic. -/
inductive Numeric where
  | int (n : Int)
  | float (x : Float)
  deriving DecidableEq, Repr

/-- The operand as a double. -/
def Numeric.toFloat : Numeric → Float
  | .int n => Float.ofInt n
  | .float x => x

/-- The number that a value is; a whole number beyond the signed 64-bit range is a double. -/
def Value.numeric? : Value → Option Numeric
  | .int n => if fitsInt64 n then some (.int n) else some (.float (Float.ofInt n))
  | .float x => some (.float x)
  | .bool flag => some (.int (if flag then 1 else 0))
  | _ => none

/-- Both operands as numbers. -/
def numericPair (op : BinaryOp) (left right : Value) : Except Fault (Numeric × Numeric) :=
  match left.numeric?, right.numeric? with
  | some a, some b => .ok (a, b)
  | _, _ => .error (.unsupportedOperands op left.kind right.kind)

/-! ## §2 Operators on numbers -/

/-- The whole number if it is a signed 64-bit one, or else the double. -/
def exactOr (n : Int) (x : Float) : Value := if fitsInt64 n then .int n else .ofFloat x

/-- An operator that is exact on whole numbers as long as the result fits. -/
def arithmetic (op : BinaryOp) (exact : Int → Int → Int) (rounded : Float → Float → Float)
    (left right : Value) : Except Fault Value := do
  let (a, b) ← numericPair op left right
  match a, b with
  | .int m, .int n => .ok (exactOr (exact m n) (rounded (Float.ofInt m) (Float.ofInt n)))
  | _, _ => .ok (.ofFloat (rounded a.toFloat b.toFloat))

/-- The quotient as a double. -/
def divide (left right : Value) : Except Fault Value := do
  let (a, b) ← numericPair .divide left right
  if b.toFloat == 0 then .error .divisionByZero
  else .ok (.ofFloat (a.toFloat / b.toFloat))

/-- The floor of the quotient. -/
def floorDivide (left right : Value) : Except Fault Value := do
  let (a, b) ← numericPair .floorDivide left right
  if b.toFloat == 0 then .error .divisionByZero
  else
    let rounded := floorFloat (a.toFloat / b.toFloat)
    match a, b with
    | .int m, .int n => .ok (exactOr (Int.fdiv m n) rounded)
    | _, _ => .ok (.ofFloat rounded)

/-- What the floor of the quotient leaves over; it has the sign of the divisor. -/
def floorModulo (left right : Value) : Except Fault Value := do
  let (a, b) ← numericPair .modulo left right
  if b.toFloat == 0 then .error .moduloByZero
  else
    match a, b with
    | .int m, .int n => .ok (.int (Int.fmod m n))
    | _, _ =>
        let x := a.toFloat
        let y := b.toFloat
        .ok (.ofFloat (x - y * floorFloat (x / y)))

/-- The opposite number. -/
def negate (v : Value) : Except Fault Value :=
  match v.numeric? with
  | some (.int n) => .ok (exactOr (-n) (-(Float.ofInt n)))
  | some (.float x) => .ok (.ofFloat (-x))
  | none => .error .negatedNonNumber

/-! ## §3 Operators on other values -/

/-- Texts and lists are joined, numbers added. -/
def add : Value → Value → Except Fault Value
  | .text a, .text b => .ok (.text (a ++ b))
  | .list a, .list b => .ok (.list (a ++ b))
  | left, right => arithmetic .add (· + ·) (· + ·) left right

/-- The greatest length in bytes of a repeated text. -/
def maxRepeatBytes : Nat := 1048576

/-- The text, `count` times over; a negative count gives the empty text. -/
def repeatText (s : String) (count : Int) : Except Fault Value :=
  let times := count.toNat
  if s.utf8ByteSize * times ≤ maxRepeatBytes then
    .ok (.text (if s.isEmpty then "" else String.join (List.replicate times s)))
  else .error .repetitionTooLarge

/-- A text is repeated, numbers are multiplied. -/
def multiply (left right : Value) : Except Fault Value :=
  let product := arithmetic .multiply (· * ·) (· * ·) left right
  match left, right with
  | .text s, .int n => if fitsInt64 n then repeatText s n else product
  | .int n, .text s => if fitsInt64 n then repeatText s n else product
  | _, _ => product

/-- Two numbers are equal as numbers; other values are equal if they are built alike. A truth value
is not equal to a number. -/
def valuesEqual (left right : Value) : Bool :=
  match left, right with
  | .int _, .int _ | .int _, .float _ | .float _, .int _ | .float _, .float _ =>
      match left.numeric?, right.numeric? with
      | some (.int m), some (.int n) => m == n
      | some a, some b => a.toFloat == b.toFloat
      | _, _ => false
  | _, _ => left.same right

/-- The order of two doubles; there is none with NaN. -/
def compareFloats (x y : Float) : Except Fault Ordering :=
  if x < y then .ok .lt
  else if x == y then .ok .eq
  else if y < x then .ok .gt
  else .error .unordered

/-- The order of two texts, by code points, or of two numbers. -/
def compareValues (left right : Value) : Except Fault Ordering :=
  match left, right with
  | .text a, .text b => .ok (compare a b)
  | _, _ =>
      match left.numeric?, right.numeric? with
      | some (.int m), some (.int n) => .ok (compare m n)
      | some a, some b => compareFloats a.toFloat b.toFloat
      | _, _ => .error (.incomparable left.kind right.kind)

/-- The value is an item of the list, a piece of the text, or a key of the mapping. Nothing is in
null. -/
def containsValue (needle : Value) : (haystack : Value) → Except Fault Bool
  | .list items => .ok (items.any fun item => valuesEqual item needle)
  | .text s => .ok (textContains s needle.render)
  | .mapping fields => .ok (Entries.has fields needle.render)
  | .null => .ok false
  | other => .error (.notSearchable other.kind)

/-! ## §4 One operator for all -/

/-- The value of an operator on two values. -/
def applyBinary : BinaryOp → Value → Value → Except Fault Value
  | .add, l, r => add l r
  | .subtract, l, r => arithmetic .subtract (· - ·) (· - ·) l r
  | .multiply, l, r => multiply l r
  | .divide, l, r => divide l r
  | .floorDivide, l, r => floorDivide l r
  | .modulo, l, r => floorModulo l r
  | .concat, l, r => .ok (.text (l.render ++ r.render))
  | .equal, l, r => .ok (.bool (valuesEqual l r))
  | .notEqual, l, r => .ok (.bool (!valuesEqual l r))
  | .less, l, r => (compareValues l r).map fun o => .bool o.isLT
  | .lessEqual, l, r => (compareValues l r).map fun o => .bool o.isLE
  | .greater, l, r => (compareValues l r).map fun o => .bool o.isGT
  | .greaterEqual, l, r => (compareValues l r).map fun o => .bool o.isGE
  | .isIn, l, r => (containsValue l r).map .bool
  | .notIn, l, r => (containsValue l r).map fun found => .bool (!found)

end Tabletop
