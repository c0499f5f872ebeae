/-
Tabletop.Run.Frame — engines, and the flow that one of them is running.
-/
import Tabletop.Config
import Tabletop.Flow.Typing
import Tabletop.Run.Session

namespace Tabletop

/-- An engine: a game system with everything that decides how its flows run. -/
structure Engine where
  catalog : Catalog
  config : Config := {}
  make : Instantiator := catalog.instantiator .expressions
  resolver : Resolver := .expressions
  /-- The attempts asked for at each body of a step. -/
  attempts : Nat := 1
  /-- Each body of a step is announced before it runs. -/
  announces : Bool := false
  /-- The most steps of one flow in a run that the configuration leaves unbounded. -/
  fuel : Nat := 1000000000

/-- A flow that is being run. -/
structure Frame where
  engine : Engine
  flow : Flow
  /-- The number of flows around this one. -/
  depth : Nat

/-- Writes a value at a written path, converted to the type declared there. -/
def Frame.store (f : Frame) (c : Context) (path : String) (v : Value) : Traced Context := do
  let (v, state) ← Traced.ofExcept (f.flow.coerceFor f.engine.catalog f.engine.make path v)
  c.putTagged path v state

end Tabletop
