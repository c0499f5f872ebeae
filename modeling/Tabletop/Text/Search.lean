/-
Tabletop.Text.Search — finding and replacing a piece of text.

Occurrences are found from the left and do not overlap. The empty piece
occurs at every boundary between characters and at both ends. In texts,
the search of the core library takes time in proportion to the lengths;
`occursIn` is for short pieces of lists.
-/

namespace Tabletop

/-- `piece` occurs in the list. -/
def occursIn (piece : List Char) : List Char → Bool
  | [] => piece.isEmpty
  | c :: rest => piece.isPrefixOf (c :: rest) || occursIn piece rest

/-- `piece` occurs in the text. -/
def textContains (text piece : String) : Bool := text.contains piece

/-- The text with every occurrence of `piece` replaced. -/
def replaceText (text piece replacement : String) : String := text.replace piece replacement

end Tabletop
