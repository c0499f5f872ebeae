/-
Tabletop.Value.Text — values written out.

`compact` is JSON without spaces: keys in their order, texts quoted, and
escapes only where JSON demands them. `render` is how a value appears
inside a message: a text stands for itself, null leaves nothing, and all
else is compact.
-/
import Tabletop.Value
import Tabletop.Number.Layout

namespace Tabletop

/-- One hexadecimal digit, letters in lower case. -/
def hexDigit (n : Nat) : Char :=
  if n < 10 then Char.ofNat ('0'.toNat + n) else Char.ofNat ('a'.toNat + n - 10)

/-- A character inside a quoted text. Quotes, backslashes and control characters are escaped. -/
def escapedChar (c : Char) : List Char :=
  if c = '"' then ['\\', '"']
  else if c = '\\' then ['\\', '\\']
  else if c = '\n' then ['\\', 'n']
  else if c = '\r' then ['\\', 'r']
  else if c = '\t' then ['\\', 't']
  else if c.toNat = 8 then ['\\', 'b']
  else if c.toNat = 12 then ['\\', 'f']
  else if c.toNat < 32 then
    ['\\', 'u', '0', '0', hexDigit (c.toNat / 16), hexDigit (c.toNat % 16)]
  else [c]

/-- The text between double quotes, with escapes. -/
def quoted (s : String) : String :=
  String.ofList ('"' :: (s.toList.flatMap escapedChar ++ ['"']))

/-- The double as it stands in values. -/
def floatText (x : Float) : String :=
  if x.isFinite then String.ofList (FloatLayout.value.render x) else "null"

namespace Value

mutual

/-- The value as JSON without spaces. -/
def compact : Value → String
  | .null => "null"
  | .bool true => "true"
  | .bool false => "false"
  | .int n => intText n
  | .float x => floatText x
  | .text s => quoted s
  | .list items => "[" ++ String.intercalate "," (compactItems items) ++ "]"
  | .mapping fields => "\x7b" ++ String.intercalate "," (compactFields fields) ++ "\x7d"

def compactItems : List Value → List String
  | [] => []
  | v :: rest => compact v :: compactItems rest

def compactFields : List (String × Value) → List String
  | [] => []
  | (k, v) :: rest => (quoted k ++ ":" ++ compact v) :: compactFields rest

end

/-- The value as it appears inside a message. -/
def render : Value → String
  | .null => ""
  | .text s => s
  | v => v.compact

end Value

end Tabletop
