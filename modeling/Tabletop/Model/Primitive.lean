/-
Tabletop.Model.Primitive — the primitive types.

A value is converted into a text, a whole number, a double or a truth value
where it has a counterpart there. Null has one in every type, itself.
-/
import Tabletop.Model.Fault
import Tabletop.Template.Filter

namespace Tabletop

/-- The primitive types. A roll is a dice expression, kept as a text. -/
inductive Primitive where
  | str
  | int
  | float
  | bool
  | roll
  deriving DecidableEq, Repr

/-- The primitive type of a name. -/
def Primitive.named? : String → Option Primitive
  | "str" => some .str
  | "int" => some .int
  | "float" => some .float
  | "bool" => some .bool
  | "roll" => some .roll
  | _ => none

/-- The name is that of a primitive type. -/
def isPrimitive (name : String) : Bool := (Primitive.named? name).isSome

/-- A double without a fraction as a signed 64-bit integer; one out of range goes to the nearer
end. -/
def wholeToInt64? (x : Float) : Option Int :=
  if isWholeFloat x then some (truncateToInt64 x) else none

namespace Primitive

/-- The whole number that a value denotes. -/
def toInt? : Value → Option Int
  | .int n => if fitsInt64 n then some n else wholeToInt64? (Float.ofInt n)
  | .float x => wholeToInt64? x
  | .bool flag => some (if flag then 1 else 0)
  | .text s =>
      let cs := trimChars s.toList
      match readInt64 cs with
      | some n => some n
      | none => (readFloat cs).bind wholeToInt64?
  | _ => none

/-- The double that a value denotes. -/
def toFloat? (v : Value) : Option Float := v.toFloat?.filter Float.isFinite

/-- The truth value that a value denotes: for texts one of the words for true. -/
def toBool : Value → Bool
  | .text s => saysTrue s
  | v => v.truthy

/-- The counterpart of a value that is not null. -/
def convert? : Primitive → Value → Option Value
  | .str, v => some (.text v.render)
  | .roll, v => some (.text v.render)
  | .int, v => (toInt? v).map .int
  | .float, v => (toFloat? v).map .float
  | .bool, v => some (.bool (toBool v))

end Primitive

/-- The value converted into the primitive type of a name. -/
def coercePrimitive (v : Value) (typeName : String) : Except InstantiationError Value :=
  if v.isNull then .ok .null
  else
    match Primitive.named? typeName with
    | none => .error (.unsupportedType typeName)
    | some p =>
        match p.convert? v with
        | some w => .ok w
        | none => .error (.coercion v.compact typeName)

end Tabletop
