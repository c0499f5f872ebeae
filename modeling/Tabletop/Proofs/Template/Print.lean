/-
Tabletop.Proofs.Template.Print — expressions written out.

An expression is written as its words with single blanks between them. The
grammar ranks what it reads, from conditionals (0) over the binary levels
and the operators in front to what stands alone or behind a primary (9); an
operand is put in parentheses exactly if its rank is below the least one
that its place admits. Binary operators group to the left, so their right
operands have to be of a higher rank; else-branches group to the right and
are never put in parentheses.

  §1 Ranks
  §2 Words
  §3 Text
  §4 Expressions that can be written
-/
import Tabletop.Template.Grammar

namespace Tabletop

/-! ## §1 Ranks -/

/-- The rank of the expressions of a level. -/
def Level.rank : Level → Nat
  | .or => 1
  | .and => 2
  | .not => 3
  | .comparison => 4
  | .concat => 5
  | .sum => 6
  | .product => 7
  | .unary => 8

/-- The rank of primaries and of what is built from them by suffixes. -/
def postfixRank : Nat := 9

/-- The level of an operator. -/
def BinaryOp.level : BinaryOp → Level
  | .add | .subtract => .sum
  | .multiply | .divide | .floorDivide | .modulo => .product
  | .concat => .concat
  | .equal | .notEqual | .less | .lessEqual | .greater | .greaterEqual | .isIn | .notIn =>
      .comparison

/-- How tightly the expression binds. -/
def Expr.rank : Expr → Nat
  | .guarded .. | .choice .. => 0
  | .or .. => Level.or.rank
  | .and .. => Level.and.rank
  | .not .. => Level.not.rank
  | .binary op .. => op.level.rank
  | .negate .. => Level.unary.rank
  | .literal .. | .list .. | .variable .. | .attribute .. | .index .. | .filter .. => postfixRank

/-! ## §2 Words -/

/-- The operator as written. -/
def BinaryOp.words : BinaryOp → List Token
  | .add => [.sign .plus]
  | .subtract => [.sign .minus]
  | .multiply => [.sign .star]
  | .divide => [.sign .slash]
  | .floorDivide => [.sign .doubleSlash]
  | .modulo => [.sign .percent]
  | .concat => [.sign .tilde]
  | .equal => [.sign .equal]
  | .notEqual => [.sign .notEqual]
  | .less => [.sign .less]
  | .lessEqual => [.sign .lessEqual]
  | .greater => [.sign .greater]
  | .greaterEqual => [.sign .greaterEqual]
  | .isIn => [.name "in"]
  | .notIn => [.name "not", .name "in"]

/-- The literal as written. -/
def Literal.word : Literal → Token
  | .null => .name "null"
  | .bool true => .name "true"
  | .bool false => .name "false"
  | .int n => .int n
  | .float x => .float x
  | .text s => .text s

/-- The name of an attribute as written: a position is a number. -/
def attributeWord (name : String) : Token :=
  match readDigits name.toList with
  | some n => .int n
  | none => .name name

/-- The words between parentheses. -/
def inParens (ts : List Token) : List Token := .sign .openParen :: (ts ++ [.sign .closeParen])

/-- The words between brackets. -/
def inBrackets (ts : List Token) : List Token :=
  .sign .openBracket :: (ts ++ [.sign .closeBracket])

/-- An operand of the rank, in parentheses if its place asks for a higher one. -/
def operand (least rank : Nat) (ts : List Token) : List Token :=
  if rank < least then inParens ts else ts

mutual

/-- The words of an expression. -/
def Expr.words : Expr → List Token
  | .literal value => [value.word]
  | .list items => inBrackets (listWords items)
  | .variable name => [.name name]
  | .attribute base name =>
      operand postfixRank base.rank base.words ++ [.sign .dot, attributeWord name]
  | .index base position =>
      operand postfixRank base.rank base.words ++ inBrackets position.words
  | .filter target name arguments =>
      operand postfixRank target.rank target.words ++ .sign .bar :: .name name ::
        (if arguments.isEmpty then [] else inParens (listWords arguments))
  | .not inner => .name "not" :: operand Level.not.rank inner.rank inner.words
  | .negate inner => .sign .minus :: operand Level.unary.rank inner.rank inner.words
  | .and left right =>
      operand Level.and.rank left.rank left.words ++ .name "and" ::
        operand (Level.and.rank + 1) right.rank right.words
  | .or left right =>
      operand Level.or.rank left.rank left.words ++ .name "or" ::
        operand (Level.or.rank + 1) right.rank right.words
  | .binary op left right =>
      operand op.level.rank left.rank left.words ++ (op.words ++
        operand (op.level.rank + 1) right.rank right.words)
  | .guarded value condition =>
      operand Level.or.rank value.rank value.words ++ .name "if" ::
        operand Level.or.rank condition.rank condition.words
  | .choice value condition otherwise =>
      operand Level.or.rank value.rank value.words ++ .name "if" ::
        (operand Level.or.rank condition.rank condition.words ++ .name "else" :: otherwise.words)

/-- The words of expressions with commas between them. -/
def listWords : List Expr → List Token
  | [] => []
  | [e] => e.words
  | e :: next :: rest => e.words ++ .sign .comma :: listWords (next :: rest)

end

/-! ## §3 Text -/

/-- A character inside quotes. -/
def escapedIn (quote c : Char) : List Char :=
  if c = quote || c = '\\' then ['\\', c]
  else if c = '\n' then ['\\', 'n']
  else if c = '\t' then ['\\', 't']
  else [c]

/-- The word as text. -/
def Token.spelled (quote : Char) : Token → List Char
  | .int n => natDigits n
  | .float x => (Token.float x).shown.toList
  | .text s => quote :: (s.toList.flatMap (escapedIn quote) ++ [quote])
  | .name s => s.toList
  | .sign s => s.written.toList

/-- The words with single blanks between them. -/
def spell (quote : Char) (ts : List Token) : List Char :=
  [' '].intercalate (ts.map (Token.spelled quote))

/-- The expression written out. -/
def Expr.printed (quote : Char) (e : Expr) : String := String.ofList (spell quote e.words)

/-! ## §4 Expressions that can be written -/

/-- The text is a single name for the grammar. -/
def isIdentifier (s : String) : Bool :=
  match s.toList with
  | [] => false
  | c :: rest => startsName c && rest.all continuesName

/-- Names that the grammar takes for its own. -/
def keywords : List String := ["if", "else", "and", "or", "not", "in"]

/-- Names that stand for literals, in lower case. -/
def literalWords : List String := ["true", "false", "none", "null"]

/-- The name is read as a variable. -/
def isVariableName (name : String) : Bool :=
  isIdentifier name && !keywords.contains name
    && !literalWords.contains (String.ofList (name.toList.map Char.toLower))

/-- The text is a signed 64-bit number without a sign or leading zeros. -/
def isPosition (name : String) : Bool :=
  (readDigits name.toList).any fun n : Nat => fitsInt64 n && natText n == name

mutual

/-- The expression has no decimals, its whole numbers are signed 64-bit ones, and its names are
such as the grammar reads. -/
def Expr.isPrintable : Expr → Bool
  | .literal (.float _) => false
  | .literal (.int n) => fitsInt64 n
  | .literal _ => true
  | .list items => arePrintable items
  | .variable name => isVariableName name
  | .attribute base name => base.isPrintable && (isIdentifier name || isPosition name)
  | .index base position => base.isPrintable && position.isPrintable
  | .filter target name arguments =>
      target.isPrintable && isIdentifier name && arePrintable arguments
  | .not inner => inner.isPrintable
  | .negate inner => inner.isPrintable
  | .and left right => left.isPrintable && right.isPrintable
  | .or left right => left.isPrintable && right.isPrintable
  | .binary _ left right => left.isPrintable && right.isPrintable
  | .guarded value condition => value.isPrintable && condition.isPrintable
  | .choice value condition otherwise =>
      value.isPrintable && condition.isPrintable && otherwise.isPrintable

def arePrintable : List Expr → Bool
  | [] => true
  | e :: rest => e.isPrintable && arePrintable rest

end

end Tabletop
