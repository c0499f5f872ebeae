/-
Tabletop.Run.FlowCall — steps that call flows.

The flow called gets only the inputs that the step gives it; of its outputs
those come back that the step stores. What the flow was given and what it
returned is kept under `sub_flows`.
-/
import Tabletop.Run.Dice

namespace Tabletop

/-- Runs a flow inside another one, given its inputs. -/
abbrev Caller := (flow : String) → (inputs : Fields) → Run Fields

/-- The number of the next sub-flow. -/
def Run.nextSubFlow : Run Nat :=
  modifyGet fun s => (s.subFlows + 1, { s with subFlows := s.subFlows + 1 })

/-- Names the sub-flow in a failure of it. -/
def Run.inSubFlow {α : Type} (flow : String) (run : Run α) : Run α :=
  tryCatch run fun
    | .failed error => Run.fail (.subFlow flow error.failure error.step)
    | .outOfFuel => throw .outOfFuel

/-- What is kept about a sub-flow before it runs. -/
def subFlowRecord (flow : String) (inputs : Fields) : Value :=
  .mapping [("flow_id", .text flow), ("inputs", .mapping inputs), ("variables", .mapping []),
    ("outputs", .mapping [])]

namespace Frame

/-- Stores the outputs of a sub-flow at their paths, those that it has. -/
def storeOutputs (f : Frame) (outputs : Fields) : Entries String → Context → Traced Context
  | [], c => pure c
  | (output, path) :: rest, c =>
      match Entries.get? outputs output with
      | none => f.storeOutputs outputs rest c
      | some v => do
          let c ← f.store c (trim path) v
          f.storeOutputs outputs rest c

/-- Calls a flow. -/
def flowCall (f : Frame) (caller : Caller) (step : Step) (call : FlowCall) (c : Context) :
    Run Context := do
  match presentId? call.flow with
  | none => step.lacks "flow_id"
  | some flow =>
      if (f.engine.catalog.flow? flow).isNone then Run.fail (.unknownFlow flow)
      else
        let inputs ← Traced.resolved (c.resolveFields call.inputs)
        let number ← Run.nextSubFlow
        let place := s!"sub_flows.{flow}_{natText number}"
        let c ← c.put place (subFlowRecord flow inputs)
        let outputs ← (caller flow inputs).inSubFlow flow
        let c ← c.put s!"{place}.outputs" (.mapping outputs)
        let c ← c.put s!"{step.place}.result" (.mapping outputs)
        f.storeOutputs outputs call.outputs c

end Frame

end Tabletop
