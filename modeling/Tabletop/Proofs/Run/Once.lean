/-
Tabletop.Proofs.Run.Once — engines that attempt each body once.

How often an engine may attempt the bodies of steps is read at the visit
only. What a flow does within a body, before it, and at its start and end
is the same if bodies are attempted once.

  §1 Actions
  §2 The types of steps
  §3 Visits and flows
-/
import Tabletop.Proofs.Run.Attempts

namespace Tabletop

/-- The engine, attempting each body once. -/
def Engine.once (e : Engine) : Engine := { e with attempts := 1 }

/-- The flow run by the engine that attempts each body once. -/
def Frame.once (f : Frame) : Frame := { f with engine := f.engine.once }

namespace Frame

variable (f : Frame) (step : Step)

/-! ## §1 Actions -/

theorem once_runActions (actions : List Action) (c : Context) :
    f.once.runActions actions c = f.runActions actions c := by
  induction actions generalizing c with
  | nil => rfl
  | cons a rest ih =>
    unfold runActions
    simp only [ih]
    rfl

theorem once_batchChanges (base : Context) (actions : List Action) :
    f.once.batchChanges base actions = f.batchChanges base actions := by
  induction actions with
  | nil => rfl
  | cons a rest ih =>
    unfold batchChanges
    rw [ih]
    rfl

theorem once_stepActions (c : Context) : f.once.stepActions step c = f.stepActions step c := by
  unfold stepActions runBatch
  rw [once_runActions, once_batchChanges]

/-! ## §2 The types of steps -/

theorem once_rollForItems (expression : Value) (actions : List Action) (items : List Value)
    (c : Context) :
    f.once.rollForItems step expression actions items c
      = f.rollForItems step expression actions items c := by
  induction items generalizing c with
  | nil => rfl
  | cons item rest ih =>
    unfold rollForItems
    simp only [ih, once_runActions]

theorem once_rollOnTables (targets : List TableTarget) (c : Context) :
    f.once.rollOnTables step targets c = f.rollOnTables step targets c := by
  induction targets generalizing c with
  | nil => rfl
  | cons target rest ih =>
    unfold rollOnTables rollOnTable
    simp only [ih, once_runActions]
    rfl

theorem once_selectOne (source : Option ChoiceSource) (choices : List Value) (selection : Value)
    (c : Context) :
    f.once.selectOne step source choices selection c
      = f.selectOne step source choices selection c := by
  unfold selectOne
  simp only [once_runActions]
  rfl

theorem once_playerChoice (choices : List Value) (source : Option ChoiceSource) (c : Context) :
    f.once.playerChoice step choices source c = f.playerChoice step choices source c := by
  unfold playerChoice
  simp only [once_selectOne]
  rfl

theorem once_takeBranch (branch : Branch) (c : Context) :
    f.once.takeBranch step c branch = f.takeBranch step c branch := by
  induction branch with
  | last actions => exact once_runActions f actions c
  | test condition actions otherwise ih =>
    unfold takeBranch
    simp only [ih, once_runActions]

theorem once_storeOutputs (outputs : Fields) (places : Entries String) (c : Context) :
    f.once.storeOutputs outputs places c = f.storeOutputs outputs places c := by
  induction places generalizing c with
  | nil => rfl
  | cons place rest ih =>
    unfold storeOutputs
    simp only [ih]
    rfl

/-- What the type of a step does. -/
theorem once_perform (caller : Caller) (c : Context) (kind : StepKind) :
    f.once.perform caller step c kind = f.perform caller step c kind := by
  cases kind with
  | diceSequence sequence =>
    unfold perform diceSequence
    simp only [once_rollForItems]
  | tableRoll tables =>
    unfold perform tableRoll
    simp only [once_rollOnTables]
  | playerChoice choices source => exact once_playerChoice f step choices source c
  | flowCall call =>
    unfold perform flowCall
    simp only [once_storeOutputs]
    rfl
  | conditionalBranch branch =>
    unfold perform conditionalBranch
    simp only [once_takeBranch, once_runActions]
  | _ => rfl

/-! ## §3 Visits and flows -/

/-- The body of a step. -/
theorem once_stepBody (caller : Caller) (kind : StepKind) (c : Context) :
    f.once.stepBody caller step kind c = f.stepBody caller step kind c := by
  unfold stepBody
  simp only [once_perform, once_stepActions]

/-- What comes before the body of a step. -/
theorem once_prepare (c : Context) : f.once.prepare step c = f.prepare step c := by
  unfold prepare precede
  simp only [once_runActions]
  rfl

/-- A visit runs the body of the step once. -/
theorem once_visit (caller : Caller) (c : Context) :
    f.once.visit caller step c = (do
      match ← f.prepare step c with
      | .skipped c => pure (c.clearAliases, ⟨skippedPayload step, none⟩)
      | .ready kind c => do
          let c ← f.stepBody caller step kind c
          pure (completed step c)) := by
  rw [visit_eq_prepare]
  simp only [once_prepare, once_stepBody]
  rfl

theorem once_storeInputs (declarations : List FlowField) (given : Fields) (c : Context) :
    f.once.storeInputs declarations given c = f.storeInputs declarations given c := by
  induction declarations generalizing given c with
  | nil => rfl
  | cons d rest ih =>
    unfold storeInputs
    simp only [ih]
    rfl

/-- The context in which the flow starts. -/
theorem once_start (inputs : Fields) : f.once.start inputs = f.start inputs := by
  unfold start
  simp only [once_storeInputs]
  rfl

end Frame

end Tabletop
