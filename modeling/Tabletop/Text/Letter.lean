/-
Tabletop.Text.Letter — which characters may make up a name.

A name in an expression starts with a letter or an underscore and goes on
with letters, numerals and underscores, of any script.
-/
import Tabletop.Text.Ranges
import Tabletop.Text.LetterRanges

namespace Tabletop

/-- The character is a letter of some script. -/
def isLetter (c : Char) : Bool :=
  if c.toNat < 128 then c.isAlpha else inRanges alphabeticRanges c.toNat

/-- The character is a letter or a numeral of some script. -/
def isLetterOrNumeral (c : Char) : Bool :=
  if c.toNat < 128 then c.isAlphanum
  else inRanges alphabeticRanges c.toNat || inRanges numericRanges c.toNat

/-- The character may start a name. -/
def startsName (c : Char) : Bool := isLetter c || c = '_'

/-- The character may stand in a name after its start. -/
def continuesName (c : Char) : Bool := isLetterOrNumeral c || c = '_'

/-- A character that starts a name can go on with it. -/
theorem continuesName_of_startsName {c : Char} (h : startsName c = true) :
    continuesName c = true := by
  unfold startsName isLetter at h
  unfold continuesName isLetterOrNumeral
  by_cases ascii : c.toNat < 128
  · rw [if_pos ascii] at h ⊢
    unfold Char.isAlphanum
    rw [Bool.or_eq_true] at h ⊢
    exact h.imp_left fun alpha => by rw [alpha, Bool.true_or]
  · rw [if_neg ascii] at h ⊢
    rw [Bool.or_eq_true] at h ⊢
    exact h.imp_left fun alpha => by rw [alpha, Bool.true_or]

end Tabletop
