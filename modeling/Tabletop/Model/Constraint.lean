/-
Tabletop.Model.Constraint — what an attribute demands of its value.

A required attribute must be there, a value with a range must be a number
inside it, and a value with options must be one of them.
-/
import Tabletop.Model.Fault
import Tabletop.Model

namespace Tabletop

/-- The characters before and after the first two dots in a row. -/
def splitDots : List Char → Option (List Char × List Char)
  | '.' :: '.' :: rest => some ([], rest)
  | c :: rest => (splitDots rest).map fun (low, high) => (c :: low, high)
  | [] => none

/-- A bound of a range; none if nothing readable is written. -/
def readBound (cs : List Char) : Option Float := readFloat (trimChars cs)

/-- The number is below the lower bound or above the upper one. -/
def outsideBounds (low high : Option Float) (x : Float) : Bool :=
  (match low with | some b => x < b | none => false)
    || (match high with | some b => b < x | none => false)

/-- How a value violates a range. A text without two dots is no range and demands nothing. -/
def rangeViolation (path : Path) (range : String) (v : Value) : List Violation :=
  match splitDots range.toList with
  | none => []
  | some (low, high) =>
      match v.asFloat? with
      | none => [.notANumber path range]
      | some x =>
          if outsideBounds (readBound low) (readBound high) x then
            [.outsideRange path range v.render]
          else []

/-- How a value violates a list of options. -/
def optionViolation (path : Path) (options : List Value) (v : Value) : List Violation :=
  if options.any fun o => o.same v then []
  else [.notAnOption path (options.map Value.render) v.render]

/-- The value of a field that is there and not null. -/
def presentField? (fields : Fields) (name : String) : Option Value :=
  (Entries.get? fields name).filter fun v => !v.isNull

/-- How an attribute is violated by its value, or by having none. -/
def AttributeDefinition.violations (d : AttributeDefinition) (path : Path) :
    Option Value → List Violation
  | none =>
      if d.optional || d.default.isSome || d.derived.isSome then [] else [.missing path]
  | some v =>
      (match d.range with | some range => rangeViolation path range v | none => [])
        ++ (match d.options with | some options => optionViolation path options v | none => [])

mutual

/-- The violations of one node in the fields of its group. -/
def Attribute.violations (parent : Path) (name : String) (fields : Fields) :
    Attribute → List Violation
  | .leaf d => d.violations (parent ++ [name]) (presentField? fields name)
  | .group children =>
      match Entries.get? fields name with
      | some (.mapping inner) => groupViolations (parent ++ [name]) inner children
      | _ => []

/-- The violations of the nodes of a group in their order. -/
def groupViolations (parent : Path) (fields : Fields) :
    List (String × Attribute) → List Violation
  | [] => []
  | (name, node) :: rest =>
      node.violations parent name fields ++ groupViolations parent fields rest

end

end Tabletop
