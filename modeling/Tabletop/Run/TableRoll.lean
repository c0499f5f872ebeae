/-
Tabletop.Run.TableRoll — steps that roll on tables.

Each table is rolled on in turn. Its result, the entry with the roll that
picked it, is at hand for the actions of the table.
-/
import Tabletop.Run.Dice

namespace Tabletop

namespace Frame

/-- The table of an id. -/
def table (f : Frame) (id : String) : Except Failure Table :=
  match f.engine.catalog.table? id with
  | some t => .ok t
  | none => .error (.unknownTable id)

/-- The value for a total, with a warning if no entry matches. -/
def tableValue (t : Table) (total : Int) : Traced Value := do
  if (t.find? total).isNone then
    Traced.report (.warned (.noTableEntry t.id total))
  pure (t.lookup total)

/-- Rolls on one table and runs its actions. -/
def rollOnTable (f : Frame) (step : Step) (target : TableTarget) (c : Context) : Run Context := do
  match presentId? target.table with
  | none => step.lacks "tables[].table"
  | some id =>
      let t ← Traced.ofExcept (f.table id)
      if isBlankText t.roll then Run.fail (.noRoll id)
      else
        let roll ← c.rollDice (.text t.roll)
        let entry ← tableValue t roll.total
        let result : Value := .mapping [("entry", entry), ("roll_result", roll.summary)]
        let c ← c.put s!"{step.place}.result" result
        let c ← c.put "result" result
        f.runActions target.actions c

/-- Rolls on tables in order. -/
def rollOnTables (f : Frame) (step : Step) : List TableTarget → Context → Run Context
  | [], c => pure c
  | target :: rest, c => do
      let c ← f.rollOnTable step target c
      f.rollOnTables step rest c

/-- A roll on tables, of which there is at least one. -/
def tableRoll (f : Frame) (step : Step) (tables : List TableTarget) (c : Context) :
    Run Context :=
  if tables.isEmpty then step.lacks "tables" else f.rollOnTables step tables c

end Frame

end Tabletop
