/-
Tabletop.Model.Fault — why a value is no object of a model.

An object that is refused comes with the list of everything that is wrong
with it; a violation may in turn be an error in a nested object.
-/
import Tabletop.Template.Fault
import Tabletop.Value.Path

namespace Tabletop

mutual

/-- Why there is no object, or no primitive value. -/
inductive InstantiationError where
  | unknownModel (id : String)
  | notAMapping (model : String)
  /-- The value, written out, has no counterpart in the type. -/
  | coercion (value target : String)
  | unsupportedType (name : String)
  | invalid (model : String) (violations : List Violation)
  | template (error : TemplateError)
  /-- Objects are nested deeper than the data allows; no data reaches this. -/
  | outOfFuel

/-- One thing that is wrong with an object. -/
inductive Violation where
  | notAGroup (path : Path)
  | attribute (path : Path) (error : InstantiationError)
  | derived (path : Path) (error : InstantiationError)
  | missing (path : Path)
  | notANumber (path : Path) (range : String)
  | outsideRange (path : Path) (range found : String)
  | notAnOption (path : Path) (options : List String) (found : String)
  /-- A rule that does not hold, with its message. -/
  | rule (message : String)
  /-- A rule that cannot be evaluated. -/
  | ruleFailed (error : TemplateError)

end

mutual

/-- The error in words. -/
def InstantiationError.message : InstantiationError → String
  | .unknownModel id => s!"unknown model '{id}'"
  | .notAMapping model => s!"{model} data must be a mapping"
  | .coercion value target => s!"cannot convert {value} to {target}"
  | .unsupportedType name => s!"unsupported primitive type '{name}'"
  | .invalid model violations =>
      s!"{model} validation failed: " ++ String.intercalate "; " (violationMessages violations)
  | .template error => error.message
  | .outOfFuel => "objects are nested too deep"

/-- The violation in words. -/
def Violation.message : Violation → String
  | .notAGroup path => s!"'{Path.join path}' must be a mapping"
  | .attribute path error => s!"'{Path.join path}': {error.message}"
  | .derived path error => s!"derived '{Path.join path}': {error.message}"
  | .missing path => s!"missing required attribute '{Path.join path}'"
  | .notANumber path range => s!"'{Path.join path}' must be a number within {range}"
  | .outsideRange path range found =>
      s!"'{Path.join path}' must be within {range}, found {found}"
  | .notAnOption path options found =>
      s!"'{Path.join path}' must be one of [" ++ String.intercalate ", " options
        ++ s!"], found {found}"
  | .rule message => message
  | .ruleFailed error => error.message

/-- Violations in words. -/
def violationMessages : List Violation → List String
  | [] => []
  | v :: rest => v.message :: violationMessages rest

end

end Tabletop
