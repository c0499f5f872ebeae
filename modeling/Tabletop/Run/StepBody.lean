/-
Tabletop.Run.StepBody — one visit of a step.

A visit clears the data of the step and tests its condition. If it holds,
the actions before the step run once; then the body runs, again after
failures of the host if it may: what the type of the step does, and the
actions of the step. Results are at hand for these actions as aliases, which
are dropped at the end of the visit.

  §1 The body
  §2 The visit
  §3 The next step
-/
import Tabletop.Run.Branch
import Tabletop.Run.Choice
import Tabletop.Run.FlowCall
import Tabletop.Run.Generation
import Tabletop.Run.Retry

namespace Tabletop

/-- What a completed visit leaves for the flow. -/
structure Visit where
  payload : Value
  /-- The step that a selected choice goes on with. -/
  override : Option String := none

namespace Frame

/-! ## §1 The body -/

/-- Does what the type of the step does. -/
def perform (f : Frame) (caller : Caller) (step : Step) (c : Context) : StepKind → Run Context
  | .completion => c.put s!"{step.place}.result" (.mapping [("completed", .bool true)])
  | .diceRoll roll => diceRoll step roll c
  | .diceSequence sequence => f.diceSequence step sequence c
  | .tableRoll tables => f.tableRoll step tables c
  | .playerInput => playerInput step c
  | .playerChoice choices source => f.playerChoice step choices source c
  | .nameGeneration settings => f.nameGeneration step settings c
  | .llmGeneration request => f.llmGeneration step request c
  | .flowCall call => f.flowCall caller step call c
  | .conditionalBranch branch => f.conditionalBranch step branch c
  | .unknown => do
      Run.report (.warned (.unknownStep step.id step.typeName))
      pure c

/-- Writes what the step keeps under a name to the alias of that name. -/
def exposeResult (step : Step) (name : String) (c : Context) : Traced Context :=
  match c.get s!"{step.place}.{name}" with
  | some v => c.put name v
  | none => pure c

/-- Runs the actions of the step, in order or as one batch. -/
def stepActions (f : Frame) (step : Step) (c : Context) : Traced Context :=
  if step.actions.isEmpty then pure c
  else if step.parallel then f.runBatch step.actions c
  else f.runActions step.actions c

/-- The body of a step. A branch runs the actions of the step itself. -/
def stepBody (f : Frame) (caller : Caller) (step : Step) (kind : StepKind) (c : Context) :
    Run Context := do
  let c ← f.perform caller step c kind
  let c ← exposeResult step "result" c
  let c ← exposeResult step "item" c
  match kind with
  | .conditionalBranch _ => pure c
  | _ => f.stepActions step c

/-! ## §2 The visit -/

/-- The condition of the step holds, if it has one. -/
def meetsCondition (step : Step) (c : Context) : Traced Bool :=
  match step.condition with
  | none => pure true
  | some condition => Traced.resolved (c.condition condition)

/-- The report of a step that is skipped. -/
def skippedPayload (step : Step) : Value :=
  .mapping [("step_id", .text step.id), ("step_type", .text step.typeName),
    ("skipped", .bool true)]

/-- The report of a step that is completed, with its result if it has one. -/
def donePayload (step : Step) (c : Context) : Value :=
  let result := c.get s!"{step.place}.result"
  .mapping ([("step_id", .text step.id), ("step_type", .text step.typeName)]
    ++ (result.map fun v => ("result", v)).toList)

/-- The type of a step, its settings read. -/
def kindOf (step : Step) : Except Failure StepKind :=
  step.kind.mapError (.badSettings step.typeName)

/-- The body of a step as a task. -/
def taskOf (f : Frame) (step : Step) : StepTask where
  flow := f.flow.id
  step := step.id
  stepType := step.typeName
  depth := f.depth
  repeatable := isRepeatable step.typeName

/-- Runs the body of a step, as often as the engine may. -/
def runTask (f : Frame) (caller : Caller) (step : Step) (kind : StepKind) (c : Context) :
    Run Context := do
  if f.engine.announces then Run.report (.started (f.taskOf step))
  Run.retrying f.engine.attempts (f.taskOf step) (f.stepBody caller step kind c)

/-- Visits a step. -/
def visit (f : Frame) (caller : Caller) (step : Step) (c : Context) : Run (Context × Visit) := do
  let c ← c.put step.place (.mapping [])
  if ← meetsCondition step c then
    let kind ← Traced.ofExcept (kindOf step)
    let c ← f.runActions step.preActions c
    let c ← f.runTask caller step kind c
    let target := (c.get s!"{step.place}.next_step_override").bind Value.asText?
    pure (c.clearAliases, ⟨donePayload step c, target⟩)
  else pure (c.clearAliases, ⟨skippedPayload step, none⟩)

/-! ## §3 The next step -/

/-- The position of the step after this one: as the choice says, else as the step says, else the
next one. -/
def nextIndex (f : Frame) (step : Step) (visit : Visit) (index : Nat) : Except Failure Nat :=
  match visit.override, step.nextStep with
  | some target, _ =>
      match f.flow.stepIndex? target with
      | some i => .ok i
      | none => .error (.unknownChoiceTarget target)
  | none, some target =>
      match f.flow.stepIndex? target with
      | some i => .ok i
      | none => .error (.unknownTarget target)
  | none, none => .ok (index + 1)

end Frame

end Tabletop
