/-
Tabletop.Proofs.Run.Listed — runs that list their moves.

A listing is a run that also lists the moves it makes. Here the steps of a
flow are gone through as listings: they do what the plain steps do, and note
each move where it is made. Of several attempts at a body only the one that
succeeds is listed, since the others leave no context behind.

  §1 Listings
  §2 The types of steps
  §3 Visits
  §4 The first context
-/
import Tabletop.Proofs.Run.Move

namespace Tabletop

/-! ## §1 Listings -/

/-- A run that also lists moves. -/
abbrev Listing := StateT Trail Run

namespace Listed

variable {α : Type}

/-- Notes moves behind those before. -/
def note (moves : Trail) : Listing Unit := modify (· ++ moves)

/-- Makes a context, by the moves. -/
def make (made : Traced Context) (moves : Trail) : Listing Context := do
  let d ← made
  note moves
  pure d

/-- Writes a value. -/
def put (c : Context) (path : String) (v : Value) : Listing Context :=
  make (c.put path v) [(c, .write path v)]

/-- Writes a value, converted. -/
def store (f : Frame) (c : Context) (path : String) (v : Value) : Listing Context :=
  make (f.store c path v) [(c, .store path v)]

/-- Carries out actions in order. -/
def runActions (f : Frame) (actions : List Action) (c : Context) : Listing Context :=
  make (f.runActions actions c) (f.movesOf actions c)

/-- Carries out actions as one batch. -/
def runBatch (f : Frame) (actions : List Action) (c : Context) : Listing Context :=
  make (f.runBatch actions c) [(c, .batch actions)]

/-- Runs the body of a step, again after failures of the host. What has been listed in an attempt
that fails is dropped. -/
def retrying (asked : Nat) (task : StepTask) (body : Listing α) : Listing α :=
  fun trail => Run.retrying asked task (body trail)

/-- Attributes a failure to a step. -/
def atStep (id : String) (x : Listing α) : Listing α := fun trail => (x trail).atStep id

/-! ## §2 The types of steps -/

def diceRoll (step : Step) (roll : Option Value) (c : Context) : Listing Context := do
  match presentSetting? roll with
  | none => (step.lacks "roll" : Run Context)
  | some expression =>
      let roll ← c.rollDice expression
      put c s!"{step.place}.result" roll.summary

def rollForItems (f : Frame) (step : Step) (expression : Value) (actions : List Action) :
    List Value → Context → Listing Context
  | [], c => pure c
  | item :: rest, c => do
      let c ← put c s!"{step.place}.item" item
      let c ← put c "item" item
      let roll ← c.rollDice expression
      let c ← put c s!"{step.place}.result" roll.summary
      let c ← put c "result" roll.summary
      let c ← runActions f actions c
      rollForItems f step expression actions rest c

def diceSequence (f : Frame) (step : Step) (sequence : Option DiceSequence) (c : Context) :
    Listing Context := do
  match sequence with
  | none => (step.lacks "sequence" : Run Context)
  | some s =>
      match ← Frame.sequenceItems c s.items with
      | .list (first :: rest) =>
          match presentSetting? s.roll with
          | none => (step.lacks "sequence.roll" : Run Context)
          | some expression => rollForItems f step expression s.actions (first :: rest) c
      | _ => (step.lacks "sequence.items" : Run Context)

def rollOnTable (f : Frame) (step : Step) (target : TableTarget) (c : Context) :
    Listing Context := do
  match presentId? target.table with
  | none => (step.lacks "tables[].table" : Run Context)
  | some id =>
      let t ← Traced.ofExcept (f.table id)
      if isBlankText t.roll then (Run.fail (.noRoll id) : Run Context)
      else
        let roll ← c.rollDice (.text t.roll)
        let entry ← Frame.tableValue t roll.total
        let result : Value := .mapping [("entry", entry), ("roll_result", roll.summary)]
        let c ← put c s!"{step.place}.result" result
        let c ← put c "result" result
        runActions f target.actions c

def rollOnTables (f : Frame) (step : Step) : List TableTarget → Context → Listing Context
  | [], c => pure c
  | target :: rest, c => do
      let c ← rollOnTable f step target c
      rollOnTables f step rest c

def tableRoll (f : Frame) (step : Step) (tables : List TableTarget) (c : Context) :
    Listing Context :=
  if tables.isEmpty then (step.lacks "tables" : Run Context) else rollOnTables f step tables c

def playerInput (step : Step) (c : Context) : Listing Context := do
  let shown ← c.present step
  let v ← Run.ask shown c.snapshot
  put c s!"{step.place}.result" v

def selectSeveral (f : Frame) (step : Step) (source : Option ChoiceSource) (count : Nat)
    (selection : Value) (c : Context) : Listing Context := do
  let items ← Traced.ofExcept (Frame.selectionItems count selection)
  let results ← Traced.ofExcept (items.mapM (f.selected source))
  let c ← put c s!"{step.place}.results" (.list results)
  let c ← put c "results" (.list results)
  put c s!"{step.place}.result" (results.head?.getD .null)

def selectOne (f : Frame) (step : Step) (source : Option ChoiceSource) (choices : List Value)
    (selection : Value) (c : Context) : Listing Context := do
  let result ← Traced.ofExcept (f.selected source selection)
  let c ← put c s!"{step.place}.result" result
  let c ← put c "result" result
  match ← Traced.ofExcept (Frame.findChoice selection.render choices) with
  | none => pure c
  | some chosen =>
      let c ← runActions f chosen.actions c
      match chosen.nextStep.filter fun s => !isBlankText s with
      | none => pure c
      | some target => put c s!"{step.place}.next_step_override" (.text target)

def playerChoice (f : Frame) (step : Step) (choices : List Value) (source : Option ChoiceSource)
    (c : Context) : Listing Context := do
  if !(← Run.isAttended) then (Run.fail (.unattended "player_choice") : Run Context)
  else
    let choices ← f.offered choices source c
    let shownStep ← c.present step
    let shownStep : Step :=
      { shownStep with settings := Entries.insert shownStep.settings "choices" (.list choices) }
    let selection ← Run.ask shownStep c.snapshot
    match source with
    | some s =>
        if 1 < s.count then selectSeveral f step source s.count selection c
        else selectOne f step source choices selection c
    | none => selectOne f step source choices selection c

def nameGeneration (f : Frame) (step : Step) (settings : NameSettings) (c : Context) :
    Listing Context := do
  let defaults := f.engine.config.nameDefaults
  let corpus ← Frame.settingText c settings.corpus defaults.corpus
  let segmenter ← Frame.settingText c settings.segmenter defaults.segmenter
  let algorithm ← Frame.settingText c settings.algorithm defaults.algorithm
  let maxLength ← f.maxLength c settings.maxLength
  let found ← Run.name corpus segmenter maxLength algorithm
  put c s!"{step.place}.result" (.mapping [("name", .text found)])

def llmGeneration (f : Frame) (step : Step) (request : LlmRequest) (c : Context) :
    Listing Context := do
  match presentId? request.promptId with
  | none => (step.lacks "prompt_id" : Run Context)
  | some id =>
      let p ← Traced.ofExcept (f.findPrompt id)
      let text ← Frame.promptText c id p request.data
      let response ← Run.prompt id text (f.llmSettings p request)
      put c s!"{step.place}.result" (.text response.response)

def storeOutputs (f : Frame) (outputs : Fields) : Entries String → Context → Listing Context
  | [], c => pure c
  | (output, path) :: rest, c =>
      match Entries.get? outputs output with
      | none => storeOutputs f outputs rest c
      | some v => do
          let c ← store f c (trim path) v
          storeOutputs f outputs rest c

/-- The moves of the flow that is called are made on a context of its own, so they are not listed
here. -/
def flowCall (f : Frame) (caller : Caller) (step : Step) (call : FlowCall) (c : Context) :
    Listing Context := do
  match presentId? call.flow with
  | none => (step.lacks "flow_id" : Run Context)
  | some flow =>
      if (f.engine.catalog.flow? flow).isNone then (Run.fail (.unknownFlow flow) : Run Context)
      else
        let inputs ← Traced.resolved (c.resolveFields call.inputs)
        let number ← Run.nextSubFlow
        let place := s!"sub_flows.{flow}_{natText number}"
        let c ← put c place (subFlowRecord flow inputs)
        let outputs ← (caller flow inputs).inSubFlow flow
        let c ← put c s!"{place}.outputs" (.mapping outputs)
        let c ← put c s!"{step.place}.result" (.mapping outputs)
        storeOutputs f outputs call.outputs c

def takeBranch (f : Frame) (step : Step) (c : Context) : Branch → Listing Context
  | .last actions => runActions f actions c
  | .test condition actions otherwise => do
      if ← Frame.branchHolds step c condition then runActions f actions c
      else takeBranch f step c otherwise

def conditionalBranch (f : Frame) (step : Step) (branch : Branch) (c : Context) :
    Listing Context := do
  let c ← takeBranch f step c branch
  runActions f step.actions c

def perform (f : Frame) (caller : Caller) (step : Step) (c : Context) : StepKind → Listing Context
  | .completion => put c s!"{step.place}.result" (.mapping [("completed", .bool true)])
  | .diceRoll roll => diceRoll step roll c
  | .diceSequence sequence => diceSequence f step sequence c
  | .tableRoll tables => tableRoll f step tables c
  | .playerInput => playerInput step c
  | .playerChoice choices source => playerChoice f step choices source c
  | .nameGeneration settings => nameGeneration f step settings c
  | .llmGeneration request => llmGeneration f step request c
  | .flowCall call => flowCall f caller step call c
  | .conditionalBranch branch => conditionalBranch f step branch c
  | .unknown => do
      Run.report (.warned (.unknownStep step.id step.typeName))
      pure c

/-! ## §3 Visits -/

def exposeResult (step : Step) (name : String) (c : Context) : Listing Context :=
  match c.get s!"{step.place}.{name}" with
  | some v => put c name v
  | none => pure c

def stepActions (f : Frame) (step : Step) (c : Context) : Listing Context :=
  if step.actions.isEmpty then pure c
  else if step.parallel then runBatch f step.actions c
  else runActions f step.actions c

def stepBody (f : Frame) (caller : Caller) (step : Step) (kind : StepKind) (c : Context) :
    Listing Context := do
  let c ← perform f caller step c kind
  let c ← exposeResult step "result" c
  let c ← exposeResult step "item" c
  match kind with
  | .conditionalBranch _ => pure c
  | _ => stepActions f step c

def runTask (f : Frame) (caller : Caller) (step : Step) (kind : StepKind) (c : Context) :
    Listing Context := do
  if f.engine.announces then Run.report (.started (f.taskOf step))
  retrying f.engine.attempts (f.taskOf step) (stepBody f caller step kind c)

def visit (f : Frame) (caller : Caller) (step : Step) (c : Context) :
    Listing (Context × Visit) := do
  let c ← put c step.place (.mapping [])
  if ← Frame.meetsCondition step c then
    let kind ← Traced.ofExcept (Frame.kindOf step)
    let c ← runActions f step.preActions c
    let c ← runTask f caller step kind c
    let target := (c.get s!"{step.place}.next_step_override").bind Value.asText?
    note [(c, .clear)]
    pure (c.clearAliases, ⟨Frame.donePayload step c, target⟩)
  else
    note [(c, .clear)]
    pure (c.clearAliases, ⟨Frame.skippedPayload step, none⟩)

def advance (f : Frame) (caller : Caller) (step : Step) (index : Nat) (c : Context) :
    Listing (Context × Nat) := do
  f.countStep
  let (c, visit) ← visit f caller step c
  if f.depth = 0 then Run.report (.stepDone step.id visit.payload)
  let next ← Traced.ofExcept (f.nextIndex step visit index)
  pure (c, next)

/-! ## §4 The first context -/

/-- Stores an input. -/
def supply (f : Frame) (d : FlowField) (v : Value) (c : Context) : Listing Context :=
  make (do
    let (w, state) ← f.coerceInput d v
    c.putTagged s!"inputs.{d.id}" w state) [(c, .supply d v)]

def storeInputs (f : Frame) : List FlowField → (given : Fields) → Context → Listing Context
  | [], _, c => pure c
  | d :: rest, given, c =>
      match Entries.get? given d.id with
      | none =>
          if d.required then (Run.fail (.missingInput d.id f.flow.id) : Run Context)
          else storeInputs f rest given c
      | some v => do
          let c ← supply f d v c
          storeInputs f rest (Entries.erase given d.id) c

def storeNulls (space : String) : List FlowField → Context → Listing Context
  | [], c => pure c
  | d :: rest, c => do
      let c ← put c s!"{space}.{d.id}" .null
      storeNulls space rest c

def start (f : Frame) (inputs : Fields) : Listing Context := do
  let c : Context := { Context.empty with resolver := f.engine.resolver }
  let c ← storeInputs f f.flow.inputs inputs c
  let c ← storeNulls "outputs" f.flow.outputs c
  storeNulls "variables" f.flow.locals c

end Listed

end Tabletop
