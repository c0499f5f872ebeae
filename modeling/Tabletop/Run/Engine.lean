/-
Tabletop.Run.Engine — running flows.

A flow runs on a context of its own: its inputs are converted to their
declared types, its outputs and variables start as null, its steps are
visited from the first on, and its outputs are converted at the end. A flow
may call flows, down to the greatest depth of the configuration; steps are
counted over all flows of a run, up to the bound of the configuration.

`runFlow` takes the number of further levels that are allowed, and the loop
over steps takes fuel: one more than the bound on steps, which is never used
up, or the fuel of the engine where there is no bound.

  §1 The first context
  §2 The steps
  §3 The outputs
  §4 Flows
-/
import Tabletop.Run.StepBody

namespace Tabletop

namespace Frame

/-! ## §1 The first context -/

/-- An input as it is stored, with its state. -/
def coerceInput (f : Frame) (d : FlowField) (v : Value) : Traced (Value × SlotState) :=
  if isPrimitive d.typeName then do
    let v ← (Traced.made (f.engine.make.coerce v d.typeName)).during (.input d.id)
    pure (v, .plain)
  else if f.engine.make.hasModel d.typeName then do
    let object ← (Traced.made
      (f.engine.make.instantiateLenient d.typeName (withModelKey v d.typeName))).during
        (.input d.id)
    pure (object.value, .raw d.typeName)
  else do
    Traced.report (.warned (.unknownInputType d.id d.typeName))
    pure (v, .plain)

/-- Stores the inputs of the declarations. What is given is used up, so of two declarations of one
id the second finds nothing. -/
def storeInputs (f : Frame) : List FlowField → (given : Fields) → Context → Traced Context
  | [], _, c => pure c
  | d :: rest, given, c =>
      match Entries.get? given d.id with
      | none =>
          if d.required then Traced.fail (.missingInput d.id f.flow.id)
          else f.storeInputs rest given c
      | some v => do
          let (v, state) ← f.coerceInput d v
          let c ← c.putTagged s!"inputs.{d.id}" v state
          f.storeInputs rest (Entries.erase given d.id) c

/-- Stores null for each of the declarations in a namespace. -/
def storeNulls (space : String) : List FlowField → Context → Traced Context
  | [], c => pure c
  | d :: rest, c => do
      let c ← c.put s!"{space}.{d.id}" .null
      storeNulls space rest c

/-- The context in which the flow starts. -/
def start (f : Frame) (inputs : Fields) : Traced Context := do
  let c : Context := { Context.empty with resolver := f.engine.resolver }
  let c ← f.storeInputs f.flow.inputs inputs c
  let c ← storeNulls "outputs" f.flow.outputs c
  storeNulls "variables" f.flow.locals c

/-! ## §2 The steps -/

/-- Counts a step; stops if there have been too many. -/
def countStep (f : Frame) : Run Unit := do
  let count ← modifyGet fun s => (s.transitions + 1, { s with transitions := s.transitions + 1 })
  match f.engine.config.maxStepTransitions with
  | some limit => if limit < count then Run.fail (.tooManySteps limit)
  | none => pure ()

/-- Counts and visits the step at a position. Returns the position of the next one. -/
def advance (f : Frame) (caller : Caller) (step : Step) (index : Nat) (c : Context) :
    Run (Context × Nat) := do
  f.countStep
  let (c, visit) ← f.visit caller step c
  if f.depth = 0 then Run.report (.stepDone step.id visit.payload)
  let next ← Traced.ofExcept (f.nextIndex step visit index)
  pure (c, next)

/-- Visits steps from a position on until there is none. -/
def runSteps (f : Frame) (caller : Caller) : (fuel index : Nat) → Context → Run Context
  | 0, _, _ => throw .outOfFuel
  | fuel + 1, index, c =>
      match f.flow.steps[index]? with
      | none => pure c
      | some step => do
          let (c, next) ← (f.advance caller step index c).atStep step.id
          f.runSteps caller fuel next c

/-- The fuel for the steps of a flow. -/
def stepFuel (f : Frame) : Nat :=
  match f.engine.config.maxStepTransitions with
  | some limit => limit + 1
  | none => f.engine.fuel

/-! ## §3 The outputs -/

/-- An output as it is returned. -/
def coerceOutput (f : Frame) (id : String) (v : Value) : Except Failure Value :=
  if v.isNull then .ok .null
  else
    match f.flow.declared? "outputs" id with
    | none => .ok v
    | some d =>
        if isPrimitive d.typeName then
          (f.engine.make.coerce v d.typeName).mapError fun e =>
            .within (.output id) (.instantiation e)
        else if d.validate && f.engine.make.hasModel d.typeName then
          match f.engine.make.instantiate d.typeName (withModelKey v d.typeName) with
          | .ok object => .ok object.value
          | .error e => .error (.within (.output id) (.instantiation e))
        else .ok v

/-- The outputs in the order in which they were first written. -/
def outputs (f : Frame) (c : Context) : Except Failure Fields :=
  (c.entries "outputs").mapM fun (id, v) => (f.coerceOutput id v).map fun w => (id, w)

end Frame

/-! ## §4 Flows -/

namespace Engine

/-- Runs a flow in its frame. -/
def runFrame (f : Frame) (caller : Caller) (inputs : Fields) : Run Fields := do
  let c ← f.start inputs
  let c ← f.runSteps caller f.stepFuel 0 c
  Traced.ofExcept (f.outputs c)

/-- Runs a flow at a depth, with `levels` levels of flows allowed from there on. -/
def runFlow (e : Engine) : (levels depth : Nat) → (id : String) → (inputs : Fields) → Run Fields
  | 0, _, id, _ => Run.fail (.tooDeep id e.config.maxFlowDepth)
  | levels + 1, depth, id, inputs =>
      match e.catalog.flow? id with
      | none => Run.fail (.unknownFlow id)
      | some flow => runFrame ⟨e, flow, depth⟩ (e.runFlow levels (depth + 1)) inputs

/-- What comes of one run. -/
structure Outcome where
  events : List Event
  result : Except Stop Fields
  /-- The host with the replies that are left. -/
  host : Host

/-- Runs a flow of the catalog. -/
def execute (e : Engine) (host : Host) (id : String) (inputs : Fields) : Outcome :=
  let (result, session) := e.runFlow (e.config.maxFlowDepth + 1) 0 id inputs { host }
  ⟨session.log.reverse, result, session.host⟩

end Engine

end Tabletop
