/-
Tabletop.Template.Filter — the filters of the expression language.

A filter turns a value, with arguments, into another: `name|title`,
`tags|join(', ')`, `hp|default(10)`. Arguments that are missing have a
default, and arguments beyond those a filter knows are ignored.

  §1 Names
  §2 Conversions to numbers
  §3 Single filters
  §4 All filters
-/
import Tabletop.Template.Arithmetic
import Tabletop.Text.Casing

namespace Tabletop

/-! ## §1 Names -/

/-- The filters. -/
inductive Filter where
  | upper
  | lower
  | title
  | capitalize
  | trim
  | length
  | default
  | int
  | float
  | string
  | bool
  | round
  | abs
  | join
  | first
  | last
  | replace
  deriving DecidableEq, Repr

/-- The filter of a name. -/
def Filter.named? : String → Option Filter
  | "upper" => some .upper
  | "lower" => some .lower
  | "title" => some .title
  | "capitalize" => some .capitalize
  | "trim" => some .trim
  | "length" => some .length
  | "count" => some .length
  | "default" => some .default
  | "d" => some .default
  | "int" => some .int
  | "float" => some .float
  | "string" => some .string
  | "bool" => some .bool
  | "round" => some .round
  | "abs" => some .abs
  | "join" => some .join
  | "first" => some .first
  | "last" => some .last
  | "replace" => some .replace
  | _ => none

/-! ## §2 Conversions to numbers -/

/-- A double without its fraction, in the signed 64-bit range. -/
def truncateToInt64 (x : Float) : Int := truncateFloat int64Min int64Max x

/-- The value as a signed 64-bit integer, fractions cut off and large values capped. -/
def Value.toInt64? : Value → Option Int
  | .int n => if fitsInt64 n then some n else some (truncateToInt64 (Float.ofInt n))
  | .float x => some (truncateToInt64 x)
  | .bool flag => some (if flag then 1 else 0)
  | .text s =>
      let cs := trimChars s.toList
      match readInt64 cs with
      | some n => some n
      | none => (readFloat cs).map truncateToInt64
  | _ => none

/-- The value as a double. -/
def Value.toFloat? : Value → Option Float
  | .int n => some (Float.ofInt n)
  | .float x => some x
  | .bool flag => some (if flag then 1 else 0)
  | .text s => readFloat (trimChars s.toList)
  | _ => none

/-- The text is one of the words for true. -/
def saysTrue (s : String) : Bool := lowerAscii (trim s) ∈ ["true", "yes", "1", "on"]

/-! ## §3 Single filters -/

/-- The number of characters, items or fields; null has none. -/
def lengthOf : Value → Except Fault Value
  | .text s => .ok (.int s.length)
  | .list items => .ok (.int items.length)
  | .mapping fields => .ok (.int fields.length)
  | .null => .ok (.int 0)
  | other => .error (.lengthUndefined other.kind)

/-- The value, or the replacement if the value is null or, where asked for, false. -/
def defaulted (v : Value) (arguments : List Value) : Value :=
  let falseCounts := match arguments[1]? with
    | some flag => flag.truthy
    | none => false
  if v.isNull || (falseCounts && !v.truthy) then arguments[0]?.getD (.text "") else v

/-- The number rounded to so many decimal places, halves away from zero. Negative places round to
tens, hundreds and so on; a count beyond the signed 32-bit range is taken as zero. -/
def roundedTo (v : Value) (places : Int) : Except Fault Value :=
  match v.toFloat? with
  | none => .error (.notRoundable v.kind)
  | some x =>
      let places := if -2147483648 ≤ places && places < 2147483648 then places else 0
      let factor := powerFloat 10 places
      .ok (.ofFloat (roundFloat (x * factor) / factor))

/-- The magnitude; that of the least integer is the greatest. -/
def absolute (v : Value) : Except Fault Value :=
  match v.numeric? with
  | some (.int n) => .ok (.int (clampInt int64Min int64Max n.natAbs))
  | some (.float x) => .ok (.ofFloat x.abs)
  | none => .error (.absoluteNonNumber v.kind)

/-- The items of a list with a separator between them; another value stands for itself. -/
def joined (v : Value) (separator : String) : Value :=
  match v with
  | .list items => .text (String.intercalate separator (items.map Value.render))
  | other => .text other.render

/-- The character as a text, if there is one. -/
def charValue (c : Option Char) : Value :=
  match c with
  | some c => .text (String.ofList [c])
  | none => .null

/-- The first item or character. -/
def firstOf : Value → Value
  | .list items => items.head?.getD .null
  | .text s => charValue s.toList.head?
  | _ => .null

/-- The last item or character. -/
def lastOf : Value → Value
  | .list items => items.getLast?.getD .null
  | .text s => charValue s.toList.getLast?
  | _ => .null

/-! ## §4 All filters -/

/-- The value of a filter. -/
def Filter.apply (f : Filter) (v : Value) (arguments : List Value) : Except Fault Value :=
  match f with
  | .upper => .ok (.text (upperText v.render))
  | .lower => .ok (.text (lowerText v.render))
  | .title => .ok (.text (titleText v.render))
  | .capitalize => .ok (.text (capitalized v.render))
  | .trim => .ok (.text (Tabletop.trim v.render))
  | .length => lengthOf v
  | .default => .ok (defaulted v arguments)
  | .int => .ok (match v.toInt64? with
      | some n => .int n
      | none => arguments[0]?.getD (.int 0))
  | .float => .ok (match v.toFloat? with
      | some x => .ofFloat x
      | none => arguments[0]?.getD (.float 0))
  | .string => .ok (.text v.render)
  | .bool => .ok (.bool (match v with
      | .text s => saysTrue s
      | other => other.truthy))
  | .round => roundedTo v ((arguments[0]?.bind Value.asInt64?).getD 0)
  | .abs => absolute v
  | .join => .ok (joined v ((arguments[0]?.map Value.render).getD ""))
  | .first => .ok (firstOf v)
  | .last => .ok (lastOf v)
  | .replace =>
      match arguments with
      | piece :: replacement :: _ =>
          .ok (.text (replaceText v.render piece.render replacement.render))
      | _ => .error .replaceArguments

/-- The value of the filter of a name. -/
def applyFilter (name : String) (v : Value) (arguments : List Value) : Except Fault Value :=
  match Filter.named? name with
  | some f => f.apply v arguments
  | none => .error (.unknownFilter name)

end Tabletop
