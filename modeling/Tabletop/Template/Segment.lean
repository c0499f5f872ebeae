/-
Tabletop.Template.Segment — cutting a template into text and expressions.

An expression stands between double braces. It ends at the first double
closing brace outside quotes; inside quotes a backslash takes the next
character with it.
-/

namespace Tabletop

/-- A piece of a template. -/
inductive Segment where
  | text (cs : List Char)
  | expression (cs : List Char)
  deriving DecidableEq, Repr

/-- The opening brace. -/
def openBrace : Char := '\x7b'

/-- The closing brace. -/
def closeBrace : Char := '\x7d'

/-- The character opens or closes a quoted text. -/
def opensQuote (c : Char) : Bool := c = '\'' || c = '"'

/-- The expression up to its closing braces, and what follows them. `quote` is the quote that is
open; `escaped` says that a backslash stands before. -/
def takeExpression : (quote : Option Char) → (escaped : Bool) → List Char →
    Option (List Char × List Char)
  | _, _, [] => none
  | some q, escaped, c :: rest =>
      let after :=
        if escaped then takeExpression (some q) false rest
        else if c = '\\' then takeExpression (some q) true rest
        else if c = q then takeExpression none false rest
        else takeExpression (some q) false rest
      after.map fun (inside, rest) => (c :: inside, rest)
  | none, _, c :: rest =>
      if c = closeBrace && rest.head? = some closeBrace then some ([], rest.tail)
      else
        (takeExpression (if opensQuote c then some c else none) false rest).map
          fun (inside, rest) => (c :: inside, rest)

/-- The text before the first opener, and what follows the opener if there is one. -/
def takeText : List Char → List Char × Option (List Char)
  | [] => ([], none)
  | c :: rest =>
      if c = openBrace && rest.head? = some openBrace then ([], some rest.tail)
      else
        let (text, after) := takeText rest
        (c :: text, after)

/-- The text as a segment, unless it is empty. -/
def textSegment (cs : List Char) : List Segment := if cs.isEmpty then [] else [.text cs]

/-- The segments of a template; none if an opener is not closed. `fuel` bounds their number. -/
def segmentsFrom : (fuel : Nat) → List Char → Option (List Segment)
  | 0, _ => some []
  | fuel + 1, cs =>
      match takeText cs with
      | (text, none) => some (textSegment text)
      | (text, some body) => do
          let (source, rest) ← takeExpression none false body
          let more ← segmentsFrom fuel rest
          some (textSegment text ++ .expression source :: more)

/-- The segments of a template. -/
def segments (cs : List Char) : Option (List Segment) := segmentsFrom (cs.length + 1) cs

end Tabletop
