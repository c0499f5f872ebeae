/-
Tabletop.Template.Grammar — from tokens to expressions.

Loosest to tightest: `value if condition else otherwise`; `or`; `and`;
`not`; comparisons and `in`; `~`; `+ -`; `* / // %`; the signs `-` and `+`
in front; and behind a primary, attributes, positions and filters. The
binary levels are one rule over a table of operators and group to the
left; else-branches group to the right.

Every rule takes the tokens and returns an expression with the tokens left
over. The rules call one another on ever fewer tokens, at most a fixed
number of times on the same ones, so `fuel` is computed from their number
and never runs out.

  §1 Faults
  §2 Levels
  §3 Rules
-/
import Tabletop.Template.Token
import Tabletop.Template.Expr

namespace Tabletop

/-! ## §1 Faults -/

/-- Why a text is not an expression. -/
inductive GrammarFault where
  | lexical (fault : TokenFault)
  | emptyExpression
  | unexpectedToken (found : Token)
  | unexpectedEnd
  | expectedSign (sign : Sign) (found : Option Token)
  | expectedAttribute (found : Option Token)
  | expectedFilter
  | outOfFuel
  deriving DecidableEq, Repr

/-- The fault in words. -/
def GrammarFault.message : GrammarFault → String
  | .lexical (.unexpectedCharacter c) => s!"unexpected character '{c}'"
  | .lexical .unterminatedText => "unterminated string literal"
  | .emptyExpression => "empty expression"
  | .unexpectedToken t => s!"unexpected token {t.shown}"
  | .unexpectedEnd => "unexpected end of expression"
  | .expectedSign s (some t) => s!"expected '{s.written}', found {t.shown}"
  | .expectedSign s none => s!"expected '{s.written}', found end of expression"
  | .expectedAttribute (some t) => s!"expected attribute name after '.', found {t.shown}"
  | .expectedAttribute none => "expected attribute name after '.'"
  | .expectedFilter => "expected filter name after '|'"
  | .outOfFuel => "expression is too long"

/-! ## §2 Levels -/

/-- The binary levels, loosest first, with `not` in its place among them. -/
inductive Level where
  | or
  | and
  | not
  | comparison
  | concat
  | sum
  | product
  | unary
  deriving DecidableEq, Repr

/-- The next tighter level. -/
def Level.tighter : Level → Level
  | .or => .and
  | .and => .not
  | .not => .comparison
  | .comparison => .concat
  | .concat => .sum
  | .sum => .product
  | .product => .unary
  | .unary => .unary

/-- The binary operator of the level at the head of the tokens, and the tokens behind it. -/
def Level.operator? : Level → List Token → Option ((Expr → Expr → Expr) × List Token)
  | .or, .name "or" :: rest => some (.or, rest)
  | .or, .sign .doubleBar :: rest => some (.or, rest)
  | .and, .name "and" :: rest => some (.and, rest)
  | .and, .sign .doubleAnd :: rest => some (.and, rest)
  | .comparison, .sign .equal :: rest => some (.binary .equal, rest)
  | .comparison, .sign .notEqual :: rest => some (.binary .notEqual, rest)
  | .comparison, .sign .less :: rest => some (.binary .less, rest)
  | .comparison, .sign .lessEqual :: rest => some (.binary .lessEqual, rest)
  | .comparison, .sign .greater :: rest => some (.binary .greater, rest)
  | .comparison, .sign .greaterEqual :: rest => some (.binary .greaterEqual, rest)
  | .comparison, .name "in" :: rest => some (.binary .isIn, rest)
  | .comparison, .name "not" :: .name "in" :: rest => some (.binary .notIn, rest)
  | .concat, .sign .tilde :: rest => some (.binary .concat, rest)
  | .sum, .sign .plus :: rest => some (.binary .add, rest)
  | .sum, .sign .minus :: rest => some (.binary .subtract, rest)
  | .product, .sign .star :: rest => some (.binary .multiply, rest)
  | .product, .sign .doubleSlash :: rest => some (.binary .floorDivide, rest)
  | .product, .sign .slash :: rest => some (.binary .divide, rest)
  | .product, .sign .percent :: rest => some (.binary .modulo, rest)
  | _, _ => none

/-- What a one-token operator in front makes of its operand at this level: the sign `+` nothing. -/
def Level.front? : Level → List Token → Option ((Expr → Expr) × List Token)
  | .not, .name "not" :: rest => some (.not, rest)
  | .not, .sign .bang :: rest => some (.not, rest)
  | .unary, .sign .minus :: rest => some (.negate, rest)
  | .unary, .sign .plus :: rest => some (id, rest)
  | _, _ => none

/-! ## §3 Rules -/

/-- The expression of a name: a word for a truth value or null in any case, or else a variable. -/
def Expr.ofName (name : String) : Expr :=
  let word := String.ofList (name.toList.map Char.toLower)
  if word = "true" then .literal (.bool true)
  else if word = "false" then .literal (.bool false)
  else if word = "none" || word = "null" then .literal .null
  else .variable name

/-- The literal of a decimal token; one out of range is null. -/
def Literal.ofFloat (x : Float) : Literal := if x.isFinite then .float x else .null

/-- Drops the expected sign. -/
def expectSign (sign : Sign) : List Token → Except GrammarFault (List Token)
  | [] => .error (.expectedSign sign none)
  | t :: rest => if t = .sign sign then .ok rest else .error (.expectedSign sign (some t))

/-- Drops `name =` in front of an argument, which counts by its place only. -/
def dropKeyword : List Token → List Token
  | .name _ :: .sign .assign :: rest => rest
  | ts => ts

mutual

/-- A whole expression: a value, and optionally when it holds and what else. -/
def parseConditional : (fuel : Nat) → List Token → Except GrammarFault (Expr × List Token)
  | 0, _ => .error .outOfFuel
  | fuel + 1, ts => do
      let (value, rest) ← parseLevel fuel .or ts
      match rest with
      | .name "if" :: rest => do
          let (condition, rest) ← parseLevel fuel .or rest
          match rest with
          | .name "else" :: rest => do
              let (otherwise, rest) ← parseConditional fuel rest
              .ok (.choice value condition otherwise, rest)
          | _ => .ok (.guarded value condition, rest)
      | _ => .ok (value, rest)

/-- An expression of a level: operators in front of an operand of the same level, or operands of
the next level with binary operators between them. -/
def parseLevel : (fuel : Nat) → Level → List Token → Except GrammarFault (Expr × List Token)
  | 0, _, _ => .error .outOfFuel
  | fuel + 1, level, ts =>
      match level.front? ts with
      | some (wrap, rest) => do
          let (inner, rest) ← parseLevel fuel level rest
          .ok (wrap inner, rest)
      | none =>
          if level = .unary then do
            let (base, rest) ← parsePrimary fuel ts
            parseSuffixes fuel base rest
          else do
            let (left, rest) ← parseLevel fuel level.tighter ts
            parseChain fuel level left rest

/-- Goes on after the operand `left` as long as operators of the level follow. -/
def parseChain : (fuel : Nat) → Level → (left : Expr) → List Token →
    Except GrammarFault (Expr × List Token)
  | 0, _, _, _ => .error .outOfFuel
  | fuel + 1, level, left, ts =>
      match level.operator? ts with
      | none => .ok (left, ts)
      | some (combine, rest) => do
          let (right, rest) ← parseLevel fuel level.tighter rest
          parseChain fuel level (combine left right) rest

/-- Goes on after `base` as long as attributes, positions or filters follow. -/
def parseSuffixes : (fuel : Nat) → (base : Expr) → List Token →
    Except GrammarFault (Expr × List Token)
  | 0, _, _ => .error .outOfFuel
  | fuel + 1, base, ts =>
      match ts with
      | .sign .dot :: rest =>
          match rest with
          | .name n :: rest => parseSuffixes fuel (.attribute base n) rest
          | .int n :: rest => parseSuffixes fuel (.attribute base (natText n)) rest
          | t :: _ => .error (.expectedAttribute (some t))
          | [] => .error (.expectedAttribute none)
      | .sign .openBracket :: rest => do
          let (position, rest) ← parseConditional fuel rest
          let rest ← expectSign .closeBracket rest
          parseSuffixes fuel (.index base position) rest
      | .sign .bar :: rest =>
          match rest with
          | .name n :: .sign .openParen :: rest => do
              let (arguments, rest) ← parseArguments fuel .closeParen rest
              parseSuffixes fuel (.filter base n arguments) rest
          | .name n :: rest => parseSuffixes fuel (.filter base n []) rest
          | _ => .error .expectedFilter
      | _ => .ok (base, ts)

/-- The arguments up to the closing sign, possibly none. -/
def parseArguments : (fuel : Nat) → (closing : Sign) → List Token →
    Except GrammarFault (List Expr × List Token)
  | 0, _, _ => .error .outOfFuel
  | fuel + 1, closing, ts =>
      match expectSign closing ts with
      | .ok rest => .ok ([], rest)
      | .error _ => parseMoreArguments fuel closing ts

/-- At least one argument, and the others up to the closing sign. -/
def parseMoreArguments : (fuel : Nat) → (closing : Sign) → List Token →
    Except GrammarFault (List Expr × List Token)
  | 0, _, _ => .error .outOfFuel
  | fuel + 1, closing, ts => do
      let (argument, rest) ← parseConditional fuel (dropKeyword ts)
      match expectSign closing rest with
      | .ok rest => .ok ([argument], rest)
      | .error _ => do
          let rest ← expectSign .comma rest
          let (arguments, rest) ← parseMoreArguments fuel closing rest
          .ok (argument :: arguments, rest)

/-- A literal, a name, a list, or an expression in parentheses. -/
def parsePrimary : (fuel : Nat) → List Token → Except GrammarFault (Expr × List Token)
  | 0, _ => .error .outOfFuel
  | fuel + 1, ts =>
      match ts with
      | .int n :: rest => .ok (.literal (.int n), rest)
      | .float x :: rest => .ok (.literal (.ofFloat x), rest)
      | .text s :: rest => .ok (.literal (.text s), rest)
      | .name n :: rest => .ok (.ofName n, rest)
      | .sign .openParen :: rest => do
          let (inner, rest) ← parseConditional fuel rest
          let rest ← expectSign .closeParen rest
          .ok (inner, rest)
      | .sign .openBracket :: rest => do
          let (items, rest) ← parseArguments fuel .closeBracket rest
          .ok (.list items, rest)
      | t :: _ => .error (.unexpectedToken t)
      | [] => .error .unexpectedEnd

end

/-- Fuel enough for the rules on this many tokens. -/
def parseFuel (count : Nat) : Nat := 24 * count + 24

/-- The expression that the tokens make up. -/
def Expr.ofTokens (ts : List Token) : Except GrammarFault Expr :=
  if ts.isEmpty then .error .emptyExpression
  else do
    let (e, rest) ← parseConditional (parseFuel ts.length) ts
    match rest with
    | [] => .ok e
    | t :: _ => .error (.unexpectedToken t)

/-- The expression that a text denotes. -/
def Expr.parse (source : List Char) : Except GrammarFault Expr :=
  match tokens source with
  | .error fault => .error (.lexical fault)
  | .ok ts => Expr.ofTokens ts

end Tabletop
