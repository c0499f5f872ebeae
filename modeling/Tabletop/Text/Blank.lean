/-
Tabletop.Text.Blank — white space, trimming, and words.

White space is the Unicode property White_Space. Trimming works on
character lists, so its laws are those of `dropWhile`.
-/
import Tabletop.Text.Ranges

namespace Tabletop

/-- Code points with the property White_Space. -/
def blankRanges : List (Nat × Nat) :=
  [(9, 13), (32, 32), (133, 133), (160, 160), (5760, 5760), (8192, 8202), (8232, 8233),
    (8239, 8239), (8287, 8287), (12288, 12288)]

/-- The character is white space. -/
def isBlank (c : Char) : Bool := inRanges blankRanges c.toNat

/-- The list without the characters of `p` at its two ends. -/
def trimWhile (p : Char → Bool) (cs : List Char) : List Char :=
  ((cs.dropWhile p).reverse.dropWhile p).reverse

/-- The list without white space at its two ends. -/
def trimChars (cs : List Char) : List Char := trimWhile isBlank cs

/-- The text without white space at its two ends. -/
def trim (s : String) : String := String.ofList (trimChars s.toList)

/-- The text is empty or white space throughout. -/
def isBlankText (s : String) : Bool := s.toList.all isBlank

/-- The number of maximal runs of characters that are not white space. `inWord` says that the
character before was one of a word. -/
def countWords : (inWord : Bool) → List Char → Nat
  | _, [] => 0
  | inWord, c :: cs =>
      if isBlank c then countWords false cs
      else if inWord then countWords true cs
      else countWords true cs + 1

end Tabletop
