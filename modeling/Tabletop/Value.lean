/-
Tabletop.Value — the values that flows compute with.

A value is null, a truth value, a number, a text, a list, or a mapping
that remembers the order of its keys. Whole numbers and doubles are kept
apart: `1` is not `1.0`. Whole numbers range over the signed and the
unsigned 64-bit integers; a double that is not finite is no value, and a
computation that ends in one gives null.

  §1 Values
  §2 Equality
  §3 Numbers in values
  §4 Reading a value as true or false
-/
import Tabletop.Entries
import Tabletop.Number.Reading

namespace Tabletop

/-! ## §1 Values -/

/-- A value. -/
inductive Value where
  | null
  | bool (flag : Bool)
  | int (n : Int)
  | float (x : Float)
  | text (s : String)
  | list (items : List Value)
  | mapping (fields : List (String × Value))
  deriving Inhabited, Repr

/-- The fields of a mapping. -/
abbrev Fields := Entries Value

/-- The kinds of values. -/
inductive Kind where
  | null
  | bool
  | int
  | float
  | text
  | list
  | mapping
  deriving DecidableEq, Repr

/-- The word for a kind in messages about expressions. -/
def Kind.name : Kind → String
  | .null => "none"
  | .bool => "bool"
  | .int => "int"
  | .float => "float"
  | .text => "str"
  | .list => "list"
  | .mapping => "mapping"

namespace Value

/-- The double as a value; null if it is not finite. -/
def ofFloat (x : Float) : Value := if x.isFinite then .float x else .null

def isNull : Value → Bool
  | .null => true
  | _ => false

/-- The text, if the value is one. -/
def asText? : Value → Option String
  | .text s => some s
  | _ => none

/-- The field of a mapping; other values have none. -/
def field? : Value → String → Option Value
  | .mapping fields, key => Entries.get? fields key
  | _, _ => none

/-- The kind of a value. -/
def kind : Value → Kind
  | .null => .null
  | .bool _ => .bool
  | .int _ => .int
  | .float _ => .float
  | .text _ => .text
  | .list _ => .list
  | .mapping _ => .mapping

mutual

/-- How deep lists and mappings are nested in the value. -/
def depth : Value → Nat
  | .list items => depthItems items + 1
  | .mapping fields => depthFields fields + 1
  | _ => 0

def depthItems : List Value → Nat
  | [] => 0
  | v :: rest => max (depth v) (depthItems rest)

def depthFields : List (String × Value) → Nat
  | [] => 0
  | (_, v) :: rest => max (depth v) (depthFields rest)

end

/-! ## §2 Equality

Two values are the same if they are built alike. The order of keys in a
mapping does not count; a whole number is never the same as a double; two
doubles are compared as numbers, so `0.0` is `-0.0`. -/

mutual

/-- The two values are the same, key order aside. -/
def same : Value → Value → Bool
  | .null, .null => true
  | .bool a, .bool b => a == b
  | .int a, .int b => a == b
  | .float a, .float b => a == b
  | .text a, .text b => a == b
  | .list a, .list b => sameItems a b
  | .mapping a, .mapping b => a.length == b.length && sameFields a b
  | _, _ => false

def sameItems : List Value → List Value → Bool
  | [], [] => true
  | a :: as, b :: bs => same a b && sameItems as bs
  | _, _ => false

/-- Every field of the first list is in the second with the same value. -/
def sameFields : List (String × Value) → List (String × Value) → Bool
  | [], _ => true
  | (k, a) :: rest, other =>
      (match Entries.get? other k with
        | some b => same a b
        | none => false) && sameFields rest other

end

/-! ## §3 Numbers in values -/

/-- The value as a signed 64-bit integer, if it is a whole number in that range. -/
def asInt64? : Value → Option Int
  | .int n => asInt64 n
  | _ => none

/-- The value as an unsigned 64-bit integer, if it is a whole number that is not negative. -/
def asWord? : Value → Option Nat
  | .int n => if 0 ≤ n then some n.toNat else none
  | _ => none

/-- The number as a double, whole numbers rounded to the nearest. -/
def asFloat? : Value → Option Float
  | .int n => some (Float.ofInt n)
  | .float x => some x
  | _ => none

/-! ## §4 Reading a value as true or false -/

/-- Null, false, zero, and empty texts, lists and mappings are false. -/
def truthy : Value → Bool
  | .null => false
  | .bool flag => flag
  | .int n => n ≠ 0
  | .float x => x != 0
  | .text s => !s.isEmpty
  | .list items => !items.isEmpty
  | .mapping fields => !fields.isEmpty

end Value

end Tabletop
