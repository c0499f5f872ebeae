/-
Tabletop.Text.Casing — upper case, lower case, and title case.

A character may map to a sequence (the upper case of ß is SS). Lower case
of a whole text has one rule that looks around: a capital sigma at the end
of a word becomes the final form ς. Capitalising and title case map each
character on its own.
-/
import Tabletop.Text.Letter
import Tabletop.Text.CaseRanges

namespace Tabletop

/-- `n` is one of the code points of the run. -/
def CaseRun.contains (r : CaseRun) (n : Nat) : Bool :=
  r.first ≤ n && n ≤ r.last && (n - r.first) % r.stride = 0

/-- The image of a code point under a table of runs and a table of sequences. -/
def mapCase (runs : List CaseRun) (sequences : List (Nat × List Nat)) (c : Char) : List Char :=
  match runs.find? (·.contains c.toNat) with
  | some r => [Char.ofNat (c.toNat + r.shift).toNat]
  | none =>
      match sequences.lookup c.toNat with
      | some s => s.map Char.ofNat
      | none => [c]

/-- The upper case of one character. -/
def upperChar (c : Char) : List Char :=
  if c.toNat < 128 then [c.toUpper] else mapCase upperRuns upperSequences c

/-- The lower case of one character, wherever it stands. -/
def lowerChar (c : Char) : List Char :=
  if c.toNat < 128 then [c.toLower] else mapCase lowerRuns lowerSequences c

/-- The character has the property Cased. -/
def isCased (c : Char) : Bool :=
  if c.toNat < 128 then c.isAlpha else inRanges casedRanges c.toNat

/-- The character has the property Case_Ignorable. -/
def isCaseIgnorable (c : Char) : Bool := inRanges caseIgnorableRanges c.toNat

/-- After characters that case ignores, the list goes on with a cased one. -/
def meetsCased (cs : List Char) : Bool :=
  match cs.dropWhile isCaseIgnorable with
  | [] => false
  | c :: _ => isCased c

/-- Capital sigma, the one letter whose lower case depends on its place. -/
def capitalSigma : Char := 'Σ'

/-- Lower case of a text; `before` holds the characters already passed, nearest first. -/
def lowerAfter : (before : List Char) → List Char → List Char
  | _, [] => []
  | before, c :: rest =>
      let image :=
        if c = capitalSigma then
          if meetsCased before && !meetsCased rest then ['ς'] else ['σ']
        else lowerChar c
      image ++ lowerAfter (c :: before) rest

/-- The text in upper case. -/
def upperText (s : String) : String := String.ofList (s.toList.flatMap upperChar)

/-- The text in lower case. -/
def lowerText (s : String) : String := String.ofList (lowerAfter [] s.toList)

/-- The text with its ASCII letters in lower case. -/
def lowerAscii (s : String) : String := String.ofList (s.toList.map Char.toLower)

/-- The first character in upper case, the others in lower case. -/
def capitalized (s : String) : String :=
  match s.toList with
  | [] => ""
  | c :: rest => String.ofList (upperChar c ++ rest.flatMap lowerChar)

/-- Letters and numerals make up words; the first of a word goes to upper case, the others to
lower case. -/
def titleAfter : (inWord : Bool) → List Char → List Char
  | _, [] => []
  | inWord, c :: rest =>
      if isLetterOrNumeral c then
        (if inWord then lowerChar c else upperChar c) ++ titleAfter true rest
      else c :: titleAfter false rest

/-- The text with every word capitalised. -/
def titleText (s : String) : String := String.ofList (titleAfter false s.toList)

end Tabletop
