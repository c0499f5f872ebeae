/-
Tabletop.Template.Eval — the value of an expression.

Names are looked up in a scope, which answers for whole paths. A chain of
accesses whose positions are all literal is one lookup (`staticPath?`);
any other access walks one step from the value of its base. What is
undefined is null.
-/
import Tabletop.Template.Filter
import Tabletop.Value.Path

namespace Tabletop

/-! ## §1 Scopes -/

/-- The named values that an expression can see: the value at a path whose first segment is a
name. -/
abbrev Scope := Path → Option Value

/-- The scope of a value: paths start in the value itself. -/
def Value.scope (v : Value) : Scope := v.at?

/-- The scope of named values. -/
def Fields.scope (fields : Fields) : Scope
  | [] => none
  | name :: rest => (Entries.get? fields name).bind fun v => v.at? rest

/-! ## §2 Access -/

/-- The literal as a value. -/
def Literal.value : Literal → Value
  | .null => .null
  | .bool flag => .bool flag
  | .int n => .int n
  | .float x => .float x
  | .text s => .text s

/-- The path of a chain of accesses that starts at a name and has only literal positions. -/
def Expr.staticPath? : Expr → Option Path
  | .variable name => some [name]
  | .attribute base name => base.staticPath?.map (· ++ [name])
  | .index base (.literal (.text key)) => base.staticPath?.map (· ++ [key])
  | .index base (.literal (.int n)) => base.staticPath?.map (· ++ [natText n])
  | _ => none

/-- The item, character or field at a computed position. Positions in a list count from its end if
they are negative. -/
def Value.atPosition? (base position : Value) : Option Value :=
  match base, position with
  | .list items, .int n =>
      (asInt64 n).bind fun n =>
        let i := if n < 0 then items.length + n else n
        if i < 0 then none else items[i.toNat]?
  | .text s, .int n =>
      (asInt64 n).bind fun n =>
        if n < 0 then none else s.toList[n.toNat]?.map fun c => .text (String.ofList [c])
  | _, .text key => base.child? key
  | _, _ => none

/-! ## §3 Evaluation -/

mutual

/-- The value of an expression in a scope. -/
def Expr.eval (scope : Scope) : Expr → Except Fault Value
  | .literal l => .ok l.value
  | .list items => do
      let values ← evalAll scope items
      .ok (.list values)
  | .variable name => .ok ((scope [name]).getD .null)
  | .attribute base name =>
      match (Expr.attribute base name).staticPath? with
      | some path => .ok ((scope path).getD .null)
      | none => do
          let v ← base.eval scope
          .ok ((v.child? name).getD .null)
  | .index base position =>
      match (Expr.index base position).staticPath? with
      | some path => .ok ((scope path).getD .null)
      | none => do
          let v ← base.eval scope
          let p ← position.eval scope
          .ok ((v.atPosition? p).getD .null)
  | .filter target name arguments => do
      let v ← target.eval scope
      let values ← evalAll scope arguments
      applyFilter name v values
  | .not inner => do
      let v ← inner.eval scope
      .ok (.bool (!v.truthy))
  | .negate inner => do
      let v ← inner.eval scope
      Tabletop.negate v
  | .and left right => do
      let v ← left.eval scope
      if v.truthy then right.eval scope else .ok v
  | .or left right => do
      let v ← left.eval scope
      if v.truthy then .ok v else right.eval scope
  | .binary op left right => do
      let l ← left.eval scope
      let r ← right.eval scope
      applyBinary op l r
  | .guarded value condition => do
      let c ← condition.eval scope
      if c.truthy then value.eval scope else .ok .null
  | .choice value condition otherwise => do
      let c ← condition.eval scope
      if c.truthy then value.eval scope else otherwise.eval scope

/-- The values of expressions, left to right. -/
def evalAll (scope : Scope) : List Expr → Except Fault (List Value)
  | [] => .ok []
  | e :: rest => do
      let v ← e.eval scope
      let vs ← evalAll scope rest
      .ok (v :: vs)

end

end Tabletop
