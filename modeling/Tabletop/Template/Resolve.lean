/-
Tabletop.Template.Resolve — the value of a template.

A text without an opener is its own value. A template that is one
expression, with nothing but blanks around it, has the value of that
expression; any other is a text with the values written in. Conditions are
templates, or bare expressions that are put between braces first.
-/
import Tabletop.Template.Eval
import Tabletop.Template.Segment

namespace Tabletop

/-- The text contains an opener. -/
def hasMarkers (s : String) : Bool := occursIn [openBrace, openBrace] s.toList

/-- The segment is a text of blanks. -/
def Segment.isBlank : Segment → Bool
  | .text cs => cs.all Tabletop.isBlank
  | .expression _ => false

/-- The value of the source of an expression. -/
def evalSource (scope : Scope) (source : List Char) : Except Fault Value :=
  match Expr.parse source with
  | .error fault => .error (.grammar fault)
  | .ok e => e.eval scope

/-- The segments written one after the other, expressions as their values. -/
def renderSegments (scope : Scope) : List Segment → Except Fault String
  | [] => .ok ""
  | .text cs :: rest => do
      let tail ← renderSegments scope rest
      .ok (String.ofList cs ++ tail)
  | .expression source :: rest => do
      let v ← evalSource scope source
      let tail ← renderSegments scope rest
      .ok (v.render ++ tail)

/-- The value of segments: of the only expression if there is nothing else but blanks. -/
def evalSegments (scope : Scope) (parts : List Segment) : Except Fault Value :=
  match parts.filter fun p => !p.isBlank with
  | [.expression source] => evalSource scope source
  | _ => (renderSegments scope parts).map .text

/-- The value of a template. -/
def resolveTemplate (template : String) (scope : Scope) : Except TemplateError Value :=
  if hasMarkers template then
    match segments template.toList with
    | none => .error ⟨template, .unclosed⟩
    | some parts => (evalSegments scope parts).mapError (⟨template, ·⟩)
  else .ok (.text template)

/-- A way to give templates their values. -/
structure Resolver where
  resolve : String → Scope → Except TemplateError Value

/-- The resolver of the expression language. -/
def Resolver.expressions : Resolver := ⟨resolveTemplate⟩

/-- The value counts as true in a condition: a text does unless it is blank or a word for false,
nothing or zero. -/
def holds : Value → Bool
  | .text s => !(lowerAscii (trim s) ∈ ["", "false", "none", "null", "0"])
  | v => v.truthy

/-- The condition as a template. -/
def conditionTemplate (condition : String) : String :=
  if hasMarkers condition then condition
  else "\x7b\x7b " ++ condition ++ " \x7d\x7d"

/-- The condition holds in the scope. -/
def Resolver.condition (r : Resolver) (condition : String) (scope : Scope) :
    Except TemplateError Bool :=
  (r.resolve (conditionTemplate condition) scope).map holds

end Tabletop
