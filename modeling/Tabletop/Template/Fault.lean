/-
Tabletop.Template.Fault — why a template has no value.

Every cause is a constructor; `Fault.message` is its wording, in one place.
-/
import Tabletop.Template.Grammar
import Tabletop.Value

namespace Tabletop

/-- Why a template has no value. -/
inductive Fault where
  /-- An opener without its closing braces. -/
  | unclosed
  | grammar (fault : GrammarFault)
  | unsupportedOperands (op : BinaryOp) (left right : Kind)
  | divisionByZero
  | moduloByZero
  | repetitionTooLarge
  | incomparable (left right : Kind)
  | unordered
  | notSearchable (found : Kind)
  | negatedNonNumber
  | lengthUndefined (found : Kind)
  | notRoundable (found : Kind)
  | absoluteNonNumber (found : Kind)
  | replaceArguments
  | unknownFilter (name : String)
  deriving DecidableEq, Repr

/-- The fault in words. -/
def Fault.message : Fault → String
  | .unclosed => "unclosed '\x7b\x7b'"
  | .grammar fault => fault.message
  | .unsupportedOperands op left right =>
      s!"unsupported operand types for {op.label}: {left.name} and {right.name}"
  | .divisionByZero => "division by zero"
  | .moduloByZero => "modulo by zero"
  | .repetitionTooLarge => "string repetition too large"
  | .incomparable left right => s!"cannot compare {left.name} with {right.name}"
  | .unordered => "cannot order NaN"
  | .notSearchable found => s!"'in' requires a list, string, or mapping, found {found.name}"
  | .negatedNonNumber => "unary '-' requires a number"
  | .lengthUndefined found => s!"length of {found.name} is undefined"
  | .notRoundable found => s!"cannot round {found.name}"
  | .absoluteNonNumber found => s!"abs requires a number, found {found.name}"
  | .replaceArguments => "replace requires two arguments"
  | .unknownFilter name => s!"unknown filter '{name}'"

/-- A template that cannot be resolved, with the reason. -/
structure TemplateError where
  template : String
  fault : Fault
  deriving DecidableEq, Repr

/-- The error in words. -/
def TemplateError.message (e : TemplateError) : String :=
  s!"cannot resolve template '{e.template}': {e.fault.message}"

end Tabletop
