/-
Tabletop.Proofs.Run.Parts — what runs are made of.

Apart from the flows that it calls, a visit is made of traced computations,
requests to the host, the count of calls and further attempts, one after
the other. A property of runs that holds of these parts and is kept by
sequencing (`Closed`) therefore holds of every visit up to its call and of
the rest of it. The types of steps are gone through here once, for all such
properties.

  §1 Closed properties
  §2 Requests
  §3 The types of steps
  §4 Visits up to and after a call
-/
import Tabletop.Proofs.Run.Call

namespace Tabletop

namespace Run

/-! ## §1 Closed properties -/

/-- The property holds of traced computations and is kept by sequencing. -/
structure Sequenced (P : {α : Type} → Run α → Prop) : Prop where
  traced : ∀ {α : Type} (t : Traced α), P (traced t)
  bind : ∀ {α β : Type} {x : Run α} {next : α → Run β}, P x → (∀ a, P (next a)) → P (x >>= next)

/-- The property holds of the parts of which runs are made, and is kept when they are put together.
What is read of a session is its host only. -/
structure Closed (P : {α : Type} → Run α → Prop) : Prop extends Sequenced P where
  get : ∀ {α : Type} {next : Session → Run α}, (∀ s, P (next s)) →
    (∀ s t, s.host = t.host → next s = next t) → P (get >>= next)
  setHost : ∀ change, P (setHost change)
  nextSubFlow : P nextSubFlow
  retrying : ∀ {α : Type} (asked : Nat) (task : StepTask) {body : Run α}, P body →
    P (retrying asked task body)

/-- The property holds of requests to the host as well: so it holds of what the body of a step does
on its own. -/
structure Served (P : {α : Type} → Run α → Prop) : Prop extends Sequenced P where
  roll : ∀ expression, P (roll expression)
  name : ∀ corpus segmenter maxLength algorithm, P (name corpus segmenter maxLength algorithm)
  ask : ∀ step snapshot, P (ask step snapshot)
  isAttended : P isAttended
  prompt : ∀ id text settings, P (prompt id text settings)

variable {P : {α : Type} → Run α → Prop} {α : Type}

namespace Sequenced

theorem lift (sequenced : Sequenced P) (t : Traced α) : P (liftM t : Run α) := sequenced.traced t

theorem pure (sequenced : Sequenced P) (a : α) : P (pure a : Run α) :=
  sequenced.traced (Traced.ofExcept (.ok a))

theorem fail (sequenced : Sequenced P) (failure : Failure) : P (Run.fail failure : Run α) :=
  sequenced.traced (Traced.fail failure)

theorem report (sequenced : Sequenced P) (e : Event) : P (Run.report e) :=
  sequenced.traced (Traced.report e)

theorem ite (_ : Sequenced P) {test : Prop} [Decidable test] {x y : Run α} (hx : P x)
    (hy : P y) : P (if test then x else y) := by
  split
  · exact hx
  · exact hy

end Sequenced

/-! ## §2 Requests -/

section Requests

variable {script : Host → Option (Script α)} {keep : Script α → Host → Host} {request : Event}
  {s : Session}

theorem nextReply_of_none (absent : script s.host = none) :
    nextReply script keep request s = (.ok none, s) := by
  have read : (MonadState.get : Run Session) s = (.ok s, s) := rfl
  unfold nextReply
  rw [bind_of_ok read, absent]
  rfl

theorem nextReply_of_some {replies : Script α} (installed : script s.host = some replies) :
    nextReply script keep request s = (.ok (some replies.next),
      { s with host := keep replies.rest s.host, log := request :: s.log }) := by
  have read : (MonadState.get : Run Session) s = (.ok s, s) := rfl
  unfold nextReply
  rw [bind_of_ok read, installed]
  rfl

end Requests

namespace Closed

theorem nextReply {β : Type} (closed : Closed P) (script : Host → Option (Script β))
    (keep : Script β → Host → Host) (request : Event) : P (Run.nextReply script keep request) := by
  refine closed.get (fun s => ?_) fun s t same => by rw [same]
  cases script s.host with
  | none => exact closed.pure _
  | some replies =>
    refine closed.bind (closed.report _) fun _ => ?_
    exact closed.bind (closed.setHost _) fun _ => closed.pure _

theorem roll (closed : Closed P) (expression : String) : P (Run.roll expression) := by
  refine closed.bind (closed.nextReply _ _ _) fun reply => ?_
  cases reply with
  | none => exact closed.fail _
  | some roller =>
    dsimp only
    cases roller expression with
    | error message => exact closed.fail _
    | ok roll => exact closed.pure _

theorem name (closed : Closed P) (corpus segmenter : String) (maxLength : Nat)
    (algorithm : String) : P (Run.name corpus segmenter maxLength algorithm) := by
  refine closed.bind (closed.nextReply _ _ _) fun reply => ?_
  rcases reply with _ | found | message | message
  · exact closed.fail _
  · exact closed.bind (closed.report _) fun _ => closed.pure _
  · exact closed.fail _
  · exact closed.bind (closed.report _) fun _ => closed.fail _

theorem ask (closed : Closed P) (step : Step) (snapshot : Value) :
    P (Run.ask step snapshot) := by
  refine closed.bind (closed.nextReply _ _ _) fun reply => ?_
  rcases reply with _ | message | v
  · exact closed.fail _
  · exact closed.fail _
  · exact closed.pure _

theorem isAttended (closed : Closed P) : P Run.isAttended :=
  closed.get (fun _ => closed.pure _) fun s t same => by rw [same]

theorem complete (closed : Closed P) (text : String) (settings : LlmSettings) :
    P (Run.complete text settings) :=
  closed.bind (closed.nextReply _ _ _) fun _ => closed.pure _

theorem prompt (closed : Closed P) (id text : String) (settings : LlmSettings) :
    P (Run.prompt id text settings) := by
  refine closed.bind (closed.complete text settings) fun reply => ?_
  cases reply with
  | error message => exact closed.fail _
  | ok response => exact closed.pure _

/-- Requests are made of reading the session and changing what the host has left. -/
theorem served (closed : Closed P) : Served P where
  toSequenced := closed.toSequenced
  roll := closed.roll
  name := closed.name
  ask := closed.ask
  isAttended := closed.isAttended
  prompt := closed.prompt

end Closed

end Run

/-! ## §3 The types of steps -/

namespace Frame

variable {P : {α : Type} → Run α → Prop} {f : Frame} {step : Step} {c : Context}

theorem served_rollDice (served : Run.Served P) (expression : Value) :
    P (c.rollDice expression) :=
  served.bind (served.lift _) fun _ => served.roll _

theorem served_diceRoll (served : Run.Served P) (roll : Option Value) :
    P (diceRoll step roll c) := by
  unfold diceRoll
  split
  · exact served.fail _
  · exact served.bind (served_rollDice served _) fun _ => served.lift _

theorem served_rollForItems (served : Run.Served P) (expression : Value) (actions : List Action)
    (items : List Value) : P (f.rollForItems step expression actions items c) := by
  induction items generalizing c with
  | nil => exact served.pure c
  | cons item rest ih =>
    refine served.bind (served.lift _) fun _ => ?_
    refine served.bind (served.lift _) fun _ => ?_
    refine served.bind (served_rollDice served _) fun _ => ?_
    refine served.bind (served.lift _) fun _ => ?_
    refine served.bind (served.lift _) fun _ => ?_
    exact served.bind (served.lift _) fun _ => ih

theorem served_diceSequence (served : Run.Served P) (sequence : Option DiceSequence) :
    P (f.diceSequence step sequence c) := by
  unfold diceSequence
  split
  · exact served.fail _
  · refine served.bind (served.lift _) fun _ => ?_
    split
    · split
      · exact served.fail _
      · exact served_rollForItems served _ _ _
    · exact served.fail _

theorem served_rollOnTable (served : Run.Served P) (target : TableTarget) :
    P (f.rollOnTable step target c) := by
  unfold rollOnTable
  split
  · exact served.fail _
  · refine served.bind (served.lift _) fun _ => ?_
    refine served.ite (served.fail _) ?_
    refine served.bind (served_rollDice served _) fun _ => ?_
    refine served.bind (served.lift _) fun _ => ?_
    refine served.bind (served.lift _) fun _ => ?_
    exact served.bind (served.lift _) fun _ => served.lift _

theorem served_rollOnTables (served : Run.Served P) (targets : List TableTarget) :
    P (f.rollOnTables step targets c) := by
  induction targets generalizing c with
  | nil => exact served.pure c
  | cons target rest ih => exact served.bind (served_rollOnTable served target) fun _ => ih

theorem served_playerInput (served : Run.Served P) : P (playerInput step c) :=
  served.bind (served.lift _) fun _ => served.bind (served.ask _ _) fun _ => served.lift _

theorem served_playerChoice (served : Run.Served P) (choices : List Value)
    (source : Option ChoiceSource) : P (f.playerChoice step choices source c) := by
  refine served.bind served.isAttended fun attended => ?_
  refine served.ite (served.fail _) ?_
  refine served.bind (served.lift _) fun _ => ?_
  refine served.bind (served.lift _) fun _ => ?_
  refine served.bind (served.ask _ _) fun _ => ?_
  cases source with
  | none => exact served.lift _
  | some s => exact served.ite (served.lift _) (served.lift _)

theorem served_nameGeneration (served : Run.Served P) (settings : NameSettings) :
    P (f.nameGeneration step settings c) := by
  refine served.bind (served.lift _) fun _ => ?_
  refine served.bind (served.lift _) fun _ => ?_
  refine served.bind (served.lift _) fun _ => ?_
  refine served.bind (served.lift _) fun _ => ?_
  exact served.bind (served.name _ _ _ _) fun _ => served.lift _

theorem served_llmGeneration (served : Run.Served P) (request : LlmRequest) :
    P (f.llmGeneration step request c) := by
  unfold llmGeneration
  split
  · exact served.fail _
  · refine served.bind (served.lift _) fun _ => ?_
    refine served.bind (served.lift _) fun _ => ?_
    exact served.bind (served.prompt _ _ _) fun _ => served.lift _

/-- What the type of a step does, unless it calls a flow. -/
theorem served_perform (served : Run.Served P) (caller : Caller) {kind : StepKind}
    (h : ∀ call, kind ≠ .flowCall call) : P (f.perform caller step c kind) := by
  cases kind with
  | completion => exact served.lift _
  | diceRoll roll => exact served_diceRoll served roll
  | diceSequence sequence => exact served_diceSequence served sequence
  | tableRoll tables => exact served.ite (served.fail _) (served_rollOnTables served tables)
  | playerInput => exact served_playerInput served
  | playerChoice choices source => exact served_playerChoice served choices source
  | nameGeneration settings => exact served_nameGeneration served settings
  | llmGeneration request => exact served_llmGeneration served request
  | flowCall call => exact absurd rfl (h call)
  | conditionalBranch branch => exact served.lift _
  | unknown => exact served.bind (served.report _) fun _ => served.pure c

/-- The body of a step that calls no flow. -/
theorem served_stepBody (served : Run.Served P) (caller : Caller) {kind : StepKind}
    (h : ∀ call, kind ≠ .flowCall call) : P (f.stepBody caller step kind c) := by
  refine served.bind (served_perform served caller h) fun _ => ?_
  refine served.bind (served.lift _) fun _ => ?_
  refine served.bind (served.lift _) fun _ => ?_
  split
  · exact served.pure _
  · exact served.lift _

/-! ## §4 Visits up to and after a call -/

theorem closed_runTask (closed : Run.Closed P) (caller : Caller) {kind : StepKind}
    (h : ∀ call, kind ≠ .flowCall call) : P (f.runTask caller step kind c) := by
  have body : P (f.stepBody caller step kind c) := served_stepBody closed.served caller h
  have attempted := closed.retrying f.engine.attempts (f.taskOf step) body
  exact closed.ite (closed.bind (closed.report _) fun _ => attempted) attempted

theorem sequenced_enter (sequenced : Run.Sequenced P) (counted : P Run.nextSubFlow)
    (call : FlowCall) : P (f.enter step call c) := by
  unfold enter
  split
  · exact sequenced.fail _
  · refine sequenced.ite (sequenced.fail _) ?_
    refine sequenced.bind (sequenced.lift _) fun _ => ?_
    refine sequenced.bind counted fun _ => ?_
    exact sequenced.bind (sequenced.lift _) fun _ => sequenced.pure _

theorem sequenced_leave (sequenced : Run.Sequenced P) (call : FlowCall) (sub : SubCall)
    (outputs : Fields) : P (f.leave step call sub outputs) := by
  refine sequenced.bind (sequenced.lift _) fun _ => ?_
  exact sequenced.bind (sequenced.lift _) fun _ => sequenced.lift _

/-- A visit up to its call, or all of it if it calls no flow. -/
theorem closed_approach (closed : Run.Closed P) : P (f.approach step c) := by
  refine closed.bind (closed.lift _) fun _ => ?_
  refine closed.bind (closed.lift _) fun holds => ?_
  refine closed.ite ?_ (closed.pure _)
  refine closed.bind (closed.lift _) fun kind => ?_
  refine closed.bind (closed.lift _) fun c => ?_
  split
  · rename_i call
    have entered : P (f.enter step call c >>= fun sub => Pure.pure (Approach.calling call sub)) :=
      closed.bind (sequenced_enter closed.toSequenced closed.nextSubFlow call) fun _ =>
        closed.pure _
    exact closed.ite (closed.bind (closed.report _) fun _ => entered) entered
  · rename_i other
    exact closed.bind (closed_runTask closed noCaller other) fun _ => closed.pure _

/-- The rest of a visit that has called a flow. -/
theorem closed_finish (closed : Run.Closed P) (call : FlowCall) (sub : SubCall)
    (outputs : Fields) : P (f.finish step call sub outputs) := by
  refine closed.bind (sequenced_leave closed.toSequenced call sub outputs) fun _ => ?_
  refine closed.bind (closed.lift _) fun _ => ?_
  refine closed.bind (closed.lift _) fun _ => ?_
  exact closed.bind (closed.lift _) fun _ => closed.pure _

end Frame

end Tabletop
