/-
Tabletop.Value.Json — reading JSON text.

The grammar is that of the JSON standard. Three decisions go beyond it.

* Whole numbers are kept exactly up to the 64-bit ranges; beyond them, and
  for `-0`, a number is a double.
* A number with a point or an exponent is read by one division or
  multiplication: the leading digits that fit in 64 bits, rounded to a
  double, times a power of ten. So the last bit may differ from the
  nearest double of a long decimal.
* Well-formed text may hold what is no value: a number out of range, or a
  surrogate without its partner in a text or a key. `readTree` keeps it as
  a double that is not finite, and keeps the fields of a mapping as they
  are written, repeated keys included; so a record that skips a field does
  not look into it. `readValue?` lets the last value of a key win, in the
  place of the first, and refuses a tree with anything that is no value.
-/
import Tabletop.Value

namespace Tabletop

namespace Json

/-! ## §1 White space and texts -/

/-- White space between tokens. -/
def isSpace (c : Char) : Bool := c = ' ' || c = '\n' || c = '\t' || c = '\r'

def skipSpace (cs : List Char) : List Char := cs.dropWhile isSpace

/-- The value of a hexadecimal digit. -/
def hexValue? (c : Char) : Option Nat :=
  if c.isDigit then some (c.toNat - '0'.toNat)
  else if 'a' ≤ c && c ≤ 'f' then some (c.toNat - 'a'.toNat + 10)
  else if 'A' ≤ c && c ≤ 'F' then some (c.toNat - 'A'.toNat + 10)
  else none

/-- Four hexadecimal digits. -/
def readHex : List Char → Option (Nat × List Char)
  | a :: b :: c :: d :: rest => do
      let a ← hexValue? a
      let b ← hexValue? b
      let c ← hexValue? c
      let d ← hexValue? d
      some (((a * 16 + b) * 16 + c) * 16 + d, rest)
  | _ => none

/-- One unit of a quoted text: a character, or the code of a `u` escape. -/
inductive TextUnit where
  | char (c : Char)
  | code (n : Nat)
  deriving DecidableEq, Repr

/-- The unit of an escape, after its backslash. -/
def readEscape : List Char → Option (TextUnit × List Char)
  | '"' :: rest => some (.char '"', rest)
  | '\\' :: rest => some (.char '\\', rest)
  | '/' :: rest => some (.char '/', rest)
  | 'b' :: rest => some (.char (Char.ofNat 8), rest)
  | 'f' :: rest => some (.char (Char.ofNat 12), rest)
  | 'n' :: rest => some (.char '\n', rest)
  | 'r' :: rest => some (.char '\r', rest)
  | 't' :: rest => some (.char '\t', rest)
  | 'u' :: rest => (readHex rest).map fun (n, rest) => (.code n, rest)
  | _ => none

/-- The units up to the closing quote; `fuel` bounds their number. -/
def readQuoted : (fuel : Nat) → List Char → Option (List TextUnit × List Char)
  | 0, _ => none
  | _ + 1, [] => none
  | fuel + 1, c :: rest =>
      if c = '"' then some ([], rest)
      else if c = '\\' then do
        let (unit, rest) ← readEscape rest
        let (units, rest) ← readQuoted fuel rest
        some (unit :: units, rest)
      else if c.toNat < 32 then none
      else do
        let (units, rest) ← readQuoted fuel rest
        some (.char c :: units, rest)

/-- The code is the first of a pair of surrogates. -/
def isHighSurrogate (n : Nat) : Bool := 0xD800 ≤ n && n < 0xDC00

/-- The code is the second of a pair of surrogates. -/
def isLowSurrogate (n : Nat) : Bool := 0xDC00 ≤ n && n < 0xE000

/-- The characters that units make up: a high surrogate and the low one right behind it are one
character, and a surrogate alone is none. -/
def textOfUnits : List TextUnit → Option (List Char)
  | [] => some []
  | .char c :: rest => (textOfUnits rest).map (c :: ·)
  | .code high :: .code low :: rest =>
      if isHighSurrogate high then
        if isLowSurrogate low then
          (textOfUnits rest).map
            (Char.ofNat (0x10000 + (high - 0xD800) * 0x400 + (low - 0xDC00)) :: ·)
        else none
      else if isLowSurrogate high then none
      else (textOfUnits (.code low :: rest)).map (Char.ofNat high :: ·)
  | .code n :: rest =>
      if isHighSurrogate n || isLowSurrogate n then none
      else (textOfUnits rest).map (Char.ofNat n :: ·)

/-! ## §2 Numbers -/

/-- Takes digits into `significand` as long as it stays below 2^64; also returns the digits left. -/
def takeSignificand (significand : Nat) : List Char → Nat × List Char
  | [] => (significand, [])
  | c :: rest =>
      let next := 10 * significand + digitValue c
      if next < wordBound then takeSignificand next rest else (significand, c :: rest)

/-- The power of ten as a double. -/
def powerOfTen (k : Nat) : Float := Float.ofScientific 1 false k

/-- `x · 10^exponent` for a negative exponent, in divisions by at most 10^308. -/
def scaleDown : (steps : Nat) → Float → Int → Float
  | 0, x, _ => x
  | steps + 1, x, exponent =>
      if -308 ≤ exponent then x / powerOfTen exponent.natAbs
      else if x == 0 then x
      else scaleDown steps (x / powerOfTen 308) (exponent + 308)

/-- `significand · 10^exponent` as a double; infinite if it is out of range. -/
def scaled (significand : Nat) (exponent : Int) : Float :=
  let x := Float.ofNat significand
  if exponent < 0 then scaleDown 4 x exponent
  else if exponent ≤ 308 then x * powerOfTen exponent.natAbs
  else if significand = 0 then x
  else infinity

/-- The exponent of a number: its sign and digits, if it is there. -/
def readExponent (cs : List Char) : Option (Int × List Char) :=
  match cs with
  | c :: rest =>
      if c = 'e' || c = 'E' then
        let (negative, digits) := match rest with
          | '+' :: more => (false, more)
          | '-' :: more => (true, more)
          | _ => (false, rest)
        let written := digits.takeWhile Char.isDigit
        if written.isEmpty then none
        else
          let n : Int := digitsValue written
          some (if negative then -n else n, digits.dropWhile Char.isDigit)
      else some (0, cs)
  | [] => some (0, cs)

/-- A number without its sign, as the value with the sign given. -/
def readMagnitude (negative : Bool) (cs : List Char) : Option (Value × List Char) := do
  let front := cs.takeWhile Char.isDigit
  let rest := cs.dropWhile Char.isDigit
  if front.isEmpty then none
  if front.head? = some '0' && 1 < front.length then none
  let signed (x : Float) : Value := .float (if negative then -x else x)
  let (significand, beyond) := takeSignificand 0 front
  let (fraction, tail) ← match rest with
    | '.' :: more =>
        let fraction := more.takeWhile Char.isDigit
        if fraction.isEmpty then none else some (some fraction, more.dropWhile Char.isDigit)
    | _ => some (none, rest)
  let (exponent, left) ← readExponent tail
  let whole := fraction.isNone && left.length = tail.length
  if whole && beyond.isEmpty then
    if !negative then some (.int significand, left)
    else if 1 ≤ significand && fitsInt64 (-significand) then some (.int (-significand), left)
    else some (signed (Float.ofNat significand), left)
  else
    let digits := fraction.getD []
    let (significand, ignored) := takeSignificand significand digits
    let shift : Int := beyond.length - (digits.length - ignored.length : Nat)
    some (signed (scaled significand (shift + exponent)), left)

/-- A number with an optional minus. -/
def readNumber : List Char → Option (Value × List Char)
  | '-' :: rest => readMagnitude true rest
  | cs => readMagnitude false cs

/-! ## §3 Trees -/

/-- What has no value in a tree. It is no text, no number and no record, so a reader of one of these
refuses it. -/
def noValue : Value := .float (0 / 0)

/-- The node of a quoted text. -/
def textNode (units : List TextUnit) : Value :=
  match textOfUnits units with
  | some cs => .text (String.ofList cs)
  | none => noValue

/-- The node of a mapping, which has no value if one of its keys is none. -/
def mappingNode (fields : List (List TextUnit × Value)) : Value :=
  match fields.mapM fun e => (textOfUnits e.1).map fun k => (String.ofList k, e.2) with
  | some fields => .mapping fields
  | none => noValue

mutual

/-- One value after optional white space; `fuel` bounds the nesting and the lengths together. -/
def readNode : (fuel : Nat) → List Char → Option (Value × List Char)
  | 0, _ => none
  | fuel + 1, cs =>
      match skipSpace cs with
      | 'n' :: 'u' :: 'l' :: 'l' :: rest => some (.null, rest)
      | 't' :: 'r' :: 'u' :: 'e' :: rest => some (.bool true, rest)
      | 'f' :: 'a' :: 'l' :: 's' :: 'e' :: rest => some (.bool false, rest)
      | '"' :: rest => do
          let (units, rest) ← readQuoted fuel rest
          some (textNode units, rest)
      | '[' :: rest =>
          match skipSpace rest with
          | ']' :: rest => some (.list [], rest)
          | _ => do
              let (items, rest) ← readItems fuel rest
              some (.list items, rest)
      | '\x7b' :: rest =>
          match skipSpace rest with
          | '\x7d' :: rest => some (.mapping [], rest)
          | _ => do
              let (fields, rest) ← readFields fuel rest
              some (mappingNode fields, rest)
      | rest => readNumber rest

/-- The items of a list up to its closing bracket. -/
def readItems : (fuel : Nat) → List Char → Option (List Value × List Char)
  | 0, _ => none
  | fuel + 1, cs => do
      let (v, rest) ← readNode fuel cs
      match skipSpace rest with
      | ']' :: rest => some ([v], rest)
      | ',' :: rest => do
          let (vs, rest) ← readItems fuel rest
          some (v :: vs, rest)
      | _ => none

/-- The fields of a mapping up to its closing brace. -/
def readFields : (fuel : Nat) → List Char →
    Option (List (List TextUnit × Value) × List Char)
  | 0, _ => none
  | fuel + 1, cs =>
      match skipSpace cs with
      | '"' :: rest => do
          let (k, rest) ← readQuoted fuel rest
          match skipSpace rest with
          | ':' :: rest => do
              let (v, rest) ← readNode fuel rest
              match skipSpace rest with
              | '\x7d' :: rest => some ([(k, v)], rest)
              | ',' :: rest => do
                  let (fields, rest) ← readFields fuel rest
                  some ((k, v) :: fields, rest)
              | _ => none
          | _ => none
      | _ => none

end

/-- The tree that the whole text denotes, with its fields as written. -/
def readTree (s : String) : Option Value := do
  let cs := s.toList
  let (v, rest) ← readNode (cs.length + 1) cs
  if (skipSpace rest).isEmpty then some v else none

/-! ## §4 Values -/

mutual

/-- The tree with each key of a mapping once; none if a part of it is no value. -/
def settle : Value → Option Value
  | .float x => if x.isFinite then some (.float x) else none
  | .list items => do
      let items ← settleItems items
      some (.list items)
  | .mapping fields => do
      let fields ← settleFields fields
      some (.mapping (Entries.distinct fields))
  | v => some v

def settleItems : List Value → Option (List Value)
  | [] => some []
  | v :: rest => do
      let v ← settle v
      let rest ← settleItems rest
      some (v :: rest)

def settleFields : List (String × Value) → Option (List (String × Value))
  | [] => some []
  | (k, v) :: rest => do
      let v ← settle v
      let rest ← settleFields rest
      some ((k, v) :: rest)

end

/-- The value that the whole text denotes. -/
def readValue? (s : String) : Option Value := (readTree s).bind settle

end Json

end Tabletop
