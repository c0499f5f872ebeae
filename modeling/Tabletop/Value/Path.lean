/-
Tabletop.Value.Path — paths into nested values.

A path is written `variables.hero.stats.hp`, with brackets where a key has
dots or blanks in it: `items[0]`, `table["gold coins"]`. It is split into
segments; a segment is a key of a mapping or, written in digits, a position
in a list.

  §1 Splitting and joining
  §2 Walking
-/
import Tabletop.Value
import Tabletop.Text.Blank

namespace Tabletop

/-- The segments of a path, outermost first. -/
abbrev Path := List String

namespace Path

/-! ## §1 Splitting and joining -/

/-- The segment written outside brackets, trimmed; none if nothing is left. -/
def dottedSegment (written : List Char) : Path :=
  let cs := trimChars written
  if cs.isEmpty then [] else [String.ofList cs]

/-- The character is a quote. -/
def isQuote (c : Char) : Bool := c = '"' || c = '\''

/-- The segment written inside brackets, without the blanks and then the quotes around it; none if
nothing is left. -/
def bracketSegment (written : List Char) : Path :=
  let cs := trimWhile isQuote (trimChars written)
  if cs.isEmpty then [] else [String.ofList cs]

/-- The segments from here on. `pending` holds the characters of the current segment, last first;
`inside` says that it stands in brackets. A bracket left open reaches to the end. -/
def splitFrom : (inside : Bool) → (pending : List Char) → List Char → Path
  | false, pending, [] => dottedSegment pending.reverse
  | true, pending, [] => bracketSegment pending.reverse
  | false, pending, c :: rest =>
      if c = '.' then dottedSegment pending.reverse ++ splitFrom false [] rest
      else if c = '[' then dottedSegment pending.reverse ++ splitFrom true [] rest
      else splitFrom false (c :: pending) rest
  | true, pending, c :: rest =>
      if c = ']' then bracketSegment pending.reverse ++ splitFrom false [] rest
      else splitFrom true (c :: pending) rest

/-- The segments of a written path. -/
def split (path : String) : Path := splitFrom false [] (trimChars path.toList)

/-- The segments with dots between them. -/
def join (segments : Path) : String := String.intercalate "." segments

/-- The position in a list that a segment denotes. -/
def index? (segment : String) : Option Nat := readWord segment.toList

end Path

namespace Value

/-! ## §2 Walking -/

/-- One step down: the field of a mapping or the item of a list. -/
def child? : Value → String → Option Value
  | .mapping fields, segment => Entries.get? fields segment
  | .list items, segment => (Path.index? segment).bind fun i => items[i]?
  | _, _ => none

/-- The value at the end of a path. -/
def at? (v : Value) : Path → Option Value
  | [] => some v
  | segment :: rest => (v.child? segment).bind fun w => w.at? rest

@[simp] theorem at?_nil (v : Value) : v.at? [] = some v := rfl

theorem at?_cons (v : Value) (segment : String) (rest : Path) :
    v.at? (segment :: rest) = (v.child? segment).bind fun w => w.at? rest := rfl

/-- Walking a joined path is walking its parts one after the other. -/
theorem at?_append (v : Value) (p q : Path) :
    v.at? (p ++ q) = (v.at? p).bind fun w => w.at? q := by
  induction p generalizing v with
  | nil => rfl
  | cons segment rest ih =>
    simp only [List.cons_append, at?_cons]
    cases v.child? segment with
    | none => rfl
    | some w => exact ih w

end Value

end Tabletop
