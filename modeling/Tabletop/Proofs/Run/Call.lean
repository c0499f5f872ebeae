/-
Tabletop.Proofs.Run.Call — visits, taken apart at the call of a flow.

A visit runs on its own up to the point where it calls a flow, if it calls
one: it has then resolved the inputs of the call, counted it, and put down a
record of it (`approach`). What the caller does with the outputs is again
its own affair (`finish`). Only what is between the two depends on what
flows do, and there is at most one such point in a visit, since a step that
calls a flow is attempted once.

  §1 Traced computations that are plain
  §2 A call
  §3 A visit
  §4 A step
-/
import Tabletop.Proofs.Run.Gives
import Tabletop.Run.Engine

namespace Tabletop

namespace Run

variable {α β : Type}

/-! ## §1 Traced computations that are plain -/

theorem lift_ok_bind (a : α) (next : α → Run β) :
    ((liftM (Traced.ofExcept (.ok a)) : Run α) >>= next) = next a := rfl

theorem fail_bind (failure : Failure) (next : α → Run β) :
    ((fail failure : Run α) >>= next) = fail failure := rfl

/-- A body that cannot be attempted again is run once. -/
theorem retrying_of_not_repeatable {asked : Nat} {task : StepTask} {body : Run α}
    (h : task.repeatable = false) : retrying asked task body = body := by
  funext s
  unfold retrying attemptUpTo
  cases attemptLimit asked - 1 with
  | zero => rfl
  | succ more =>
    unfold attempts
    cases hs : body s with
    | mk outcome t => cases outcome <;> simp [h]

end Run

/-! ## §2 A call -/

/-- A flow that is to be called. -/
structure SubCall where
  flow : String
  inputs : Fields
  /-- Where the caller keeps its record of the call. -/
  place : String
  /-- The context of the caller, with the record. -/
  context : Context

namespace Frame

variable {f : Frame} {caller : Caller} {step : Step} {call : FlowCall} {c : Context}

/-- Does what comes before a flow runs: resolves the inputs, counts the call and records it. -/
def enter (f : Frame) (step : Step) (call : FlowCall) (c : Context) : Run SubCall :=
  match presentId? call.flow with
  | none => step.lacks "flow_id"
  | some flow =>
      if (f.engine.catalog.flow? flow).isNone then Run.fail (.unknownFlow flow)
      else do
        let inputs ← Traced.resolved (c.resolveFields call.inputs)
        let number ← Run.nextSubFlow
        let place := s!"sub_flows.{flow}_{natText number}"
        let c ← c.put place (subFlowRecord flow inputs)
        pure ⟨flow, inputs, place, c⟩

/-- Does what comes after a flow has run: records the outputs and stores those that are asked
for. -/
def leave (f : Frame) (step : Step) (call : FlowCall) (sub : SubCall) (outputs : Fields) :
    Run Context := do
  let c ← sub.context.put s!"{sub.place}.outputs" (.mapping outputs)
  let c ← c.put s!"{step.place}.result" (.mapping outputs)
  f.storeOutputs outputs call.outputs c

theorem flowCall_eq (f : Frame) (caller : Caller) (step : Step) (call : FlowCall) (c : Context) :
    f.flowCall caller step call c = (do
      let sub ← f.enter step call c
      let outputs ← (caller sub.flow sub.inputs).inSubFlow sub.flow
      f.leave step call sub outputs) := by
  unfold flowCall enter
  cases presentId? call.flow with
  | none => rfl
  | some flow =>
    dsimp only
    by_cases unknown : (f.engine.catalog.flow? flow).isNone = true
    · rw [if_pos unknown, if_pos unknown, Run.fail_bind]
    · rw [if_neg unknown, if_neg unknown]
      simp only [bind_assoc, pure_bind]
      rfl

/-! ## §3 A visit -/

/-- How far a visit gets on its own. -/
inductive Approach where
  /-- Up to the call of a flow. -/
  | calling (call : FlowCall) (sub : SubCall)
  /-- To its end; it calls no flow. -/
  | ended (c : Context) (visit : Visit)

/-- What is at hand where no flow is called. -/
def noCaller : Caller := fun flow _ => Run.fail (.unknownFlow flow)

/-- What a visit gives whose body has run. -/
def completed (step : Step) (c : Context) : Context × Visit :=
  let target := (c.get s!"{step.place}.next_step_override").bind Value.asText?
  (c.clearAliases, ⟨donePayload step c, target⟩)

/-- Runs a visit as far as it gets on its own. -/
def approach (f : Frame) (step : Step) (c : Context) : Run Approach := do
  let c ← c.put step.place (.mapping [])
  if ← meetsCondition step c then
    let kind ← Traced.ofExcept (kindOf step)
    let c ← f.runActions step.preActions c
    match kind with
    | .flowCall call => do
        if f.engine.announces then Run.report (.started (f.taskOf step))
        let sub ← f.enter step call c
        pure (.calling call sub)
    | kind => do
        let c ← f.runTask noCaller step kind c
        pure (.ended (completed step c).1 (completed step c).2)
  else pure (.ended c.clearAliases ⟨skippedPayload step, none⟩)

/-- Runs the rest of a visit that has called a flow. -/
def finish (f : Frame) (step : Step) (call : FlowCall) (sub : SubCall) (outputs : Fields) :
    Run (Context × Visit) := do
  let c ← f.leave step call sub outputs
  let c ← exposeResult step "result" c
  let c ← exposeResult step "item" c
  let c ← f.stepActions step c
  pure (completed step c)

/-- Only steps of one type call flows. -/
theorem typeName_of_kindOf (h : kindOf step = .ok (.flowCall call)) :
    step.typeName = "flow_call" := by
  have read : ∀ {α : Type} {kind : α → StepKind} {settings : Reading α},
      (settings.map kind).mapError (Failure.badSettings step.typeName) = .ok (.flowCall call) →
        ∃ a, kind a = .flowCall call := by
    intro α kind settings h
    cases settings with
    | error e => cases h
    | ok a => exact ⟨a, Except.ok.inj h⟩
  unfold kindOf Step.kind at h
  dsimp only at h
  split at h
  case h_9 named => exact named
  case h_1 | h_5 | h_11 => cases Except.ok.inj h
  all_goals
    obtain ⟨_, made⟩ := read h
    cases made

/-- A step that calls a flow is attempted once. -/
theorem not_repeatable_of_kindOf (h : kindOf step = .ok (.flowCall call)) :
    (f.taskOf step).repeatable = false := by
  unfold taskOf
  rw [typeName_of_kindOf h]
  rfl

/-- A body that calls no flow does not depend on what flows do. -/
theorem stepBody_caller {kind : StepKind} (h : ∀ call, kind ≠ .flowCall call) (caller : Caller) :
    f.stepBody caller step kind c = f.stepBody noCaller step kind c := by
  cases kind with
  | flowCall call => exact absurd rfl (h call)
  | _ => rfl

theorem runTask_caller {kind : StepKind} (h : ∀ call, kind ≠ .flowCall call) (caller : Caller) :
    f.runTask caller step kind c = f.runTask noCaller step kind c := by
  unfold runTask
  rw [stepBody_caller h]

/-- A visit is what it does on its own, around the flow that it calls. -/
theorem visit_eq (f : Frame) (caller : Caller) (step : Step) (c : Context) :
    f.visit caller step c = (do
      match ← f.approach step c with
      | .calling call sub => do
          let outputs ← (caller sub.flow sub.inputs).inSubFlow sub.flow
          f.finish step call sub outputs
      | .ended c visit => pure (c, visit)) := by
  unfold visit approach
  rw [bind_assoc]
  congr 1
  funext c
  rw [bind_assoc]
  congr 1
  funext holds
  cases holds with
  | false => rfl
  | true =>
    cases hk : kindOf step with
    | error failure => rfl
    | ok kind =>
      simp only [if_true, Run.lift_ok_bind, bind_assoc]
      congr 1
      funext c
      cases kind with
      | flowCall call =>
        unfold runTask
        rw [Run.retrying_of_not_repeatable (not_repeatable_of_kindOf hk)]
        unfold stepBody perform
        simp only [flowCall_eq, bind_assoc, finish]
        cases f.engine.announces <;>
          simp only [if_true, Bool.false_eq_true, if_false, bind_assoc, pure_bind] <;> rfl
      | _ =>
        rw [runTask_caller (fun _ same => by cases same), bind_assoc]
        rfl

/-! ## §4 A step -/

/-- Runs what is left of a step after its visit: it is reported, and the next one is found. -/
def lead (f : Frame) (step : Step) (index : Nat) (c : Context) (visit : Visit) :
    Run (Context × Nat) := do
  if f.depth = 0 then Run.report (.stepDone step.id visit.payload)
  let next ← Traced.ofExcept (f.nextIndex step visit index)
  pure (c, next)

theorem advance_visit (f : Frame) (caller : Caller) (step : Step) (index : Nat) (c : Context) :
    f.advance caller step index c = (do
      f.countStep
      let (d, visit) ← f.visit caller step c
      f.lead step index d visit) := rfl

/-- A step is its count, what its visit does on its own, the flow that it calls, and the rest. -/
theorem advance_eq (f : Frame) (caller : Caller) (step : Step) (index : Nat) (c : Context) :
    f.advance caller step index c = (do
      f.countStep
      match ← f.approach step c with
      | .calling call sub => do
          let outputs ← (caller sub.flow sub.inputs).inSubFlow sub.flow
          let (d, visit) ← f.finish step call sub outputs
          f.lead step index d visit
      | .ended d visit => f.lead step index d visit) := by
  rw [advance_visit]
  congr 1
  funext _
  rw [visit_eq, bind_assoc]
  congr 1
  funext approach
  cases approach with
  | calling call sub => simp only [bind_assoc]
  | ended d visit => rfl

end Frame

end Tabletop
