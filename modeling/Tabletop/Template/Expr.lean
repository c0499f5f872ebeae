/-
Tabletop.Template.Expr — expressions.

The syntax tree of the expression language: literals, lists, access to
named values, filters, logic, and the binary operators.
-/

namespace Tabletop

/-- The binary operators that compute a value from two values. -/
inductive BinaryOp where
  | add
  | subtract
  | multiply
  | divide
  | floorDivide
  | modulo
  | concat
  | equal
  | notEqual
  | less
  | lessEqual
  | greater
  | greaterEqual
  | isIn
  | notIn
  deriving DecidableEq, Repr

/-- The operator's name in messages. -/
def BinaryOp.label : BinaryOp → String
  | .add => "Add"
  | .subtract => "Subtract"
  | .multiply => "Multiply"
  | .divide => "Divide"
  | .floorDivide => "FloorDivide"
  | .modulo => "Modulo"
  | .concat => "Concat"
  | .equal => "Equal"
  | .notEqual => "NotEqual"
  | .less => "Less"
  | .lessEqual => "LessEqual"
  | .greater => "Greater"
  | .greaterEqual => "GreaterEqual"
  | .isIn => "In"
  | .notIn => "NotIn"

/-- A value written in an expression. -/
inductive Literal where
  | null
  | bool (flag : Bool)
  | int (n : Nat)
  | float (x : Float)
  | text (s : String)
  deriving DecidableEq, Repr

/-- An expression. -/
inductive Expr where
  | literal (value : Literal)
  | list (items : List Expr)
  | variable (name : String)
  | attribute (base : Expr) (name : String)
  | index (base position : Expr)
  | filter (target : Expr) (name : String) (arguments : List Expr)
  | not (inner : Expr)
  | negate (inner : Expr)
  | and (left right : Expr)
  | or (left right : Expr)
  | binary (op : BinaryOp) (left right : Expr)
  /-- `value if condition` -/
  | guarded (value condition : Expr)
  /-- `value if condition else otherwise` -/
  | choice (value condition otherwise : Expr)
  deriving Repr

end Tabletop
