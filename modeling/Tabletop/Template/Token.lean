/-
Tabletop.Template.Token — the words of the expression language.

An expression is cut into whole numbers, decimals, quoted texts, names and
signs. Keywords (`if`, `and`, `in`, …) are names here; the grammar tells
them apart by where they stand.
-/
import Tabletop.Number.Layout
import Tabletop.Number.Reading
import Tabletop.Text.Letter
import Tabletop.Text.Blank

namespace Tabletop

/-! ## §1 Signs -/

/-- The signs of the language. -/
inductive Sign where
  | doubleSlash
  | equal
  | notEqual
  | lessEqual
  | greaterEqual
  | doubleAnd
  | doubleBar
  | openParen
  | closeParen
  | openBracket
  | closeBracket
  | comma
  | dot
  | bar
  | plus
  | minus
  | star
  | slash
  | percent
  | tilde
  | less
  | greater
  | bang
  | assign
  deriving DecidableEq, Repr

/-- The sign as written. -/
def Sign.written : Sign → String
  | .doubleSlash => "//"
  | .equal => "=="
  | .notEqual => "!="
  | .lessEqual => "<="
  | .greaterEqual => ">="
  | .doubleAnd => "&&"
  | .doubleBar => "||"
  | .openParen => "("
  | .closeParen => ")"
  | .openBracket => "["
  | .closeBracket => "]"
  | .comma => ","
  | .dot => "."
  | .bar => "|"
  | .plus => "+"
  | .minus => "-"
  | .star => "*"
  | .slash => "/"
  | .percent => "%"
  | .tilde => "~"
  | .less => "<"
  | .greater => ">"
  | .bang => "!"
  | .assign => "="

/-- The sign at the head of the text, the longer one where two fit, and what follows it. -/
def Sign.read? : List Char → Option (Sign × List Char)
  | '/' :: '/' :: rest => some (.doubleSlash, rest)
  | '=' :: '=' :: rest => some (.equal, rest)
  | '!' :: '=' :: rest => some (.notEqual, rest)
  | '<' :: '=' :: rest => some (.lessEqual, rest)
  | '>' :: '=' :: rest => some (.greaterEqual, rest)
  | '&' :: '&' :: rest => some (.doubleAnd, rest)
  | '|' :: '|' :: rest => some (.doubleBar, rest)
  | '(' :: rest => some (.openParen, rest)
  | ')' :: rest => some (.closeParen, rest)
  | '[' :: rest => some (.openBracket, rest)
  | ']' :: rest => some (.closeBracket, rest)
  | ',' :: rest => some (.comma, rest)
  | '.' :: rest => some (.dot, rest)
  | '|' :: rest => some (.bar, rest)
  | '+' :: rest => some (.plus, rest)
  | '-' :: rest => some (.minus, rest)
  | '*' :: rest => some (.star, rest)
  | '/' :: rest => some (.slash, rest)
  | '%' :: rest => some (.percent, rest)
  | '~' :: rest => some (.tilde, rest)
  | '<' :: rest => some (.less, rest)
  | '>' :: rest => some (.greater, rest)
  | '!' :: rest => some (.bang, rest)
  | '=' :: rest => some (.assign, rest)
  | _ => none

/-! ## §2 Tokens -/

/-- One word of an expression. -/
inductive Token where
  | int (n : Nat)
  | float (x : Float)
  | text (s : String)
  | name (s : String)
  | sign (s : Sign)
  deriving DecidableEq, Repr

/-- The token as messages show it. -/
def Token.shown : Token → String
  | .int n => natText n
  | .float x =>
      if x.isFinite then String.ofList (FloatLayout.report.render x)
      else if x.isNaN then "NaN"
      else "inf"
  | .text s => s!"'{s}'"
  | .name s => s!"'{s}'"
  | .sign s => s!"'{s.written}'"

/-- Why a text has no tokens. -/
inductive TokenFault where
  | unexpectedCharacter (c : Char)
  | unterminatedText
  deriving DecidableEq, Repr

/-- The token of a run of digits and, if there is one, of the fraction after its point. A whole
number beyond the signed 64-bit range is a decimal. -/
def Token.ofDigits (front : List Char) (fraction : Option (List Char)) : Token :=
  match fraction with
  | some digits => .float (nearestDecimal (front ++ digits) (-(digits.length : Int)))
  | none =>
      match (readDigits front).filter (fun n : Nat => fitsInt64 n) with
      | some n => .int n
      | none => .float (nearestDecimal front 0)

/-- The digits after a point that has at least one behind it, and what follows them. -/
def readFraction : List Char → Option (List Char × List Char)
  | '.' :: c :: rest =>
      if c.isDigit then
        some (c :: rest.takeWhile Char.isDigit, rest.dropWhile Char.isDigit)
      else none
  | _ => none

/-- The text up to the closing quote, and what follows it. A backslash takes the next character as
it is, except for the line break `\n` and the tab `\t`. -/
def readLiteral (quote : Char) : List Char → Option (List Char × List Char)
  | [] => none
  | c :: rest =>
      if c = quote then some ([], rest)
      else if c = '\\' then
        match rest with
        | [] => none
        | d :: rest =>
            let d := if d = 'n' then '\n' else if d = 't' then '\t' else d
            (readLiteral quote rest).map fun (cs, rest) => (d :: cs, rest)
      else (readLiteral quote rest).map fun (cs, rest) => (c :: cs, rest)

/-- The token at the head of a text that does not start with white space, and what follows it. -/
def Token.read : (c : Char) → (rest : List Char) → Except TokenFault (Token × List Char)
  | c, rest =>
      if c.isDigit then
        let front := c :: rest.takeWhile Char.isDigit
        let tail := rest.dropWhile Char.isDigit
        match readFraction tail with
        | some (digits, tail) => .ok (.ofDigits front (some digits), tail)
        | none => .ok (.ofDigits front none, tail)
      else if startsName c then
        let name := String.ofList (c :: rest.takeWhile continuesName)
        .ok (.name name, rest.dropWhile continuesName)
      else if c = '\'' || c = '"' then
        match readLiteral c rest with
        | some (cs, tail) => .ok (.text (String.ofList cs), tail)
        | none => .error .unterminatedText
      else
        match Sign.read? (c :: rest) with
        | some (s, tail) => .ok (.sign s, tail)
        | none => .error (.unexpectedCharacter c)

/-- Every token of the text; `fuel` bounds their number together with the blanks between them. -/
def tokensFrom : (fuel : Nat) → List Char → Except TokenFault (List Token)
  | _, [] => .ok []
  | 0, c :: _ => .error (.unexpectedCharacter c)
  | fuel + 1, c :: rest =>
      if isBlank c then tokensFrom fuel rest
      else
        match Token.read c rest with
        | .error e => .error e
        | .ok (t, tail) =>
            match tokensFrom fuel tail with
            | .error e => .error e
            | .ok ts => .ok (t :: ts)

/-- The tokens of a text. -/
def tokens (cs : List Char) : Except TokenFault (List Token) := tokensFrom cs.length cs

end Tabletop
