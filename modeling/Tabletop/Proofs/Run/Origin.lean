/-
Tabletop.Proofs.Run.Origin — where failures come from.

A run of flows fails at one place: at a step of the innermost flow that was
running, before its first step, or when it takes its outputs. The steps at
which the flows around it were calling lead there (`FailsAt`). The error of
the run tells that way: it names the step of the outermost flow, every flow
that was called adds one error with the step of that flow, and all of them
have the kind of the failure where it arose.

  §1 Runs inside a step
  §2 Failing in a step
  §3 Failing in a run of flows
  §4 Errors that tell the way
  §5 Runs that fail
-/
import Tabletop.Proofs.Run.Boundary
import Tabletop.Proofs.Run.Parts

namespace Tabletop

/-! ## §1 Runs inside a step -/

/-- A stop, attributed to a step unless it is already. -/
def Stop.atStep (id : String) : Stop → Stop
  | .failed error => .failed (error.atStep id)
  | .outOfFuel => .outOfFuel

/-- A stop of a sub-flow, as its caller stops. -/
def Stop.inSubFlow (flow : String) : Stop → Stop
  | .failed error => .failed ⟨.subFlow flow error.failure error.step, none⟩
  | .outOfFuel => .outOfFuel

namespace Run

variable {α β : Type}

/-- The run begins no step, and its failures name none. -/
structure WithinStep (x : Run α) : Prop where
  counts : ∀ {s t : Session} {outcome : Except Stop α}, x s = (outcome, t) →
    t.transitions = s.transitions
  fails : ∀ {s t : Session} {stop : Stop}, x s = (.error stop, t) →
    ∃ failure, stop = .failed ⟨failure, none⟩

theorem withinStep_traced (t : Traced α) : WithinStep (traced t) where
  counts := by
    intro s u outcome h
    rw [traced_apply] at h
    cases h
    rfl
  fails := by
    intro s u stop h
    obtain ⟨failure, _, same⟩ := traced_eq_error h
    exact ⟨failure, same⟩

theorem WithinStep.bind {x : Run α} {next : α → Run β} (hx : WithinStep x)
    (hn : ∀ a, WithinStep (next a)) : WithinStep (x >>= next) where
  counts := by
    intro s t outcome h
    cases outcome with
    | ok b =>
      obtain ⟨a, m, first, after⟩ := bind_apply_eq_ok h
      exact ((hn a).counts after).trans (hx.counts first)
    | error stop =>
      rcases bind_apply_eq_error h with first | ⟨a, m, first, after⟩
      · exact hx.counts first
      · exact ((hn a).counts after).trans (hx.counts first)
  fails := by
    intro s t stop h
    rcases bind_apply_eq_error h with first | ⟨a, m, first, after⟩
    · exact hx.fails first
    · exact (hn a).fails after

theorem transitions_retryWarning (task : StepTask) (attempt : Nat) (stop : Stop) (s : Session) :
    (retryWarning task attempt stop s).transitions = s.transitions := by
  cases stop <;> rfl

/-- What comes of several attempts comes of the last one. -/
theorem exists_attempt {x : Run α} (hx : WithinStep x) {task : StepTask} {again : Stop → Bool}
    {more done : Nat} {s t : Session} {outcome : Except Stop α}
    (h : attempts again (retryWarning task) (fun s => x s) more done s = (outcome, t)) :
    ∃ u, u.transitions = s.transitions ∧ x u = (outcome, t) := by
  induction more generalizing done s with
  | zero => exact ⟨s, rfl, h⟩
  | succ more ih =>
    unfold attempts at h
    cases ran : x s with
    | mk first m =>
      simp only [ran] at h
      cases first with
      | ok a =>
        cases h
        exact ⟨s, rfl, ran⟩
      | error stop =>
        simp only at h
        split at h
        · obtain ⟨u, counts, last⟩ := ih h
          rw [transitions_retryWarning] at counts
          exact ⟨u, counts.trans (hx.counts ran), last⟩
        · cases h
          exact ⟨s, rfl, ran⟩

theorem closed_withinStep : Closed @WithinStep where
  traced := withinStep_traced
  bind := WithinStep.bind
  get := fun each _ => ⟨fun {s} _ _ h => (each s).counts h, fun {s} _ _ h => (each s).fails h⟩
  setHost := fun _ => ⟨fun h => by cases h; rfl, fun h => by cases h⟩
  nextSubFlow := ⟨fun h => by cases h; rfl, fun h => by cases h⟩
  retrying := by
    intro α asked task body hx
    constructor
    · intro s t outcome h
      obtain ⟨u, counts, last⟩ := exists_attempt hx h
      exact (hx.counts last).trans counts
    · intro s t stop h
      obtain ⟨u, _, last⟩ := exists_attempt hx h
      exact hx.fails last

theorem atStep_apply (id : String) (x : Run α) (s : Session) :
    atStep id x s = ((x s).1.mapError (Stop.atStep id), (x s).2) := by
  unfold atStep
  rw [tryCatch_apply]
  cases x s with
  | mk outcome t =>
    cases outcome with
    | ok a => rfl
    | error stop => cases stop <;> rfl

theorem atStep_of_ok {id : String} {x : Run α} {s t : Session} {a : α}
    (h : x s = (.ok a, t)) : atStep id x s = (.ok a, t) := by
  rw [atStep_apply, h]
  rfl

theorem atStep_of_error {id : String} {x : Run α} {s t : Session} {stop : Stop}
    (h : x s = (.error stop, t)) : atStep id x s = (.error (stop.atStep id), t) := by
  rw [atStep_apply, h]
  rfl

theorem atStep_eq_ok {id : String} {x : Run α} {s t : Session} {a : α}
    (h : atStep id x s = (.ok a, t)) : x s = (.ok a, t) := by
  rw [atStep_apply] at h
  cases ran : x s with
  | mk outcome u =>
    rw [ran] at h
    match outcome, h with
    | .ok b, rfl => rfl

theorem atStep_eq_error {id : String} {x : Run α} {s t : Session} {error : FlowError}
    (h : atStep id x s = (.error (.failed error), t)) :
    ∃ inner, x s = (.error (.failed inner), t) := by
  rw [atStep_apply] at h
  cases ran : x s with
  | mk outcome u =>
    rw [ran] at h
    match outcome, h with
    | .error (.failed inner), rfl => exact ⟨inner, rfl⟩

theorem inSubFlow_apply (flow : String) (x : Run α) (s : Session) :
    inSubFlow flow x s = ((x s).1.mapError (Stop.inSubFlow flow), (x s).2) := by
  unfold inSubFlow
  rw [tryCatch_apply]
  cases x s with
  | mk outcome t =>
    cases outcome with
    | ok a => rfl
    | error stop => cases stop <;> rfl

theorem inSubFlow_of_ok {flow : String} {x : Run α} {s t : Session} {a : α}
    (h : x s = (.ok a, t)) : inSubFlow flow x s = (.ok a, t) := by
  rw [inSubFlow_apply, h]
  rfl

theorem inSubFlow_of_error {flow : String} {x : Run α} {s t : Session} {stop : Stop}
    (h : x s = (.error stop, t)) : inSubFlow flow x s = (.error (stop.inSubFlow flow), t) := by
  rw [inSubFlow_apply, h]
  rfl

theorem inSubFlow_eq_ok {flow : String} {x : Run α} {s t : Session} {a : α}
    (h : inSubFlow flow x s = (.ok a, t)) : x s = (.ok a, t) := by
  rw [inSubFlow_apply] at h
  cases ran : x s with
  | mk outcome u =>
    rw [ran] at h
    match outcome, h with
    | .ok b, rfl => rfl

theorem inSubFlow_eq_error {flow : String} {x : Run α} {s t : Session} {error : FlowError}
    (h : inSubFlow flow x s = (.error (.failed error), t)) :
    ∃ inner, x s = (.error (.failed inner), t) := by
  rw [inSubFlow_apply] at h
  cases ran : x s with
  | mk outcome u =>
    rw [ran] at h
    match outcome, h with
    | .error (.failed inner), rfl => exact ⟨inner, rfl⟩

end Run

/-! ## §2 Failing in a step -/

namespace Frame

variable {f : Frame} {caller : Caller} {step : Step} {index : Nat} {c : Context} {s t : Session}

/-- The step, begun in the session `s`, calls the flow; `u` is the session in which that runs. -/
def Calls (f : Frame) (step : Step) (c : Context) (s : Session) (call : FlowCall) (sub : SubCall)
    (u : Session) : Prop :=
  ∃ m, f.countStep s = (.ok (), m) ∧ f.approach step c m = (.ok (.calling call sub), u)

/-- The step, begun in the session `s`, fails, and not in a flow that it calls. -/
inductive FailsIn (f : Frame) (caller : Caller) (step : Step) (index : Nat) (c : Context)
    (s : Session) : Failure → Prop
  /-- There have been too many steps. -/
  | counting {error : FlowError} {t : Session}
      (fails : f.countStep s = (.error (.failed error), t)) :
      FailsIn f caller step index c s error.failure
  /-- The condition, the settings, an action or the body fails, at the latest when a flow is to be
  called. -/
  | visiting {error : FlowError} {m t : Session} (begun : f.countStep s = (.ok (), m))
      (fails : f.approach step c m = (.error (.failed error), t)) :
      FailsIn f caller step index c s error.failure
  /-- What is done with the outputs of a flow fails, or an action after it. -/
  | returning {call : FlowCall} {sub : SubCall} {outputs : Fields} {error : FlowError}
      {u v t : Session} (calls : f.Calls step c s call sub u)
      (returned : caller sub.flow sub.inputs u = (.ok outputs, v))
      (fails : f.finish step call sub outputs v = (.error (.failed error), t)) :
      FailsIn f caller step index c s error.failure
  /-- The step to go on with is not there. -/
  | leading {d : Context} {visit : Visit} {failure : Failure} {m t : Session}
      (begun : f.countStep s = (.ok (), m)) (visited : f.visit caller step c m = (.ok (d, visit), t))
      (fails : f.nextIndex step visit index = .error failure) :
      FailsIn f caller step index c s failure

/-- A step is counted; that fails if there are now more than there may be. -/
theorem countStep_apply (f : Frame) (s : Session) :
    f.countStep s = (match f.engine.config.maxStepTransitions with
      | some limit =>
          if limit < s.transitions + 1 then .error (.failed ⟨.tooManySteps limit, none⟩)
          else .ok ()
      | none => .ok (), { s with transitions := s.transitions + 1 }) := by
  unfold countStep
  rw [Run.bind_apply]
  cases f.engine.config.maxStepTransitions with
  | none => rfl
  | some limit =>
    change (if limit < s.transitions + 1 then Run.fail _ else pure ()) _ = _
    by_cases many : limit < s.transitions + 1
    · rw [if_pos many]
      simp only [if_pos many]
      rfl
    · rw [if_neg many]
      simp only [if_neg many]
      rfl

theorem exists_failure_of_countStep {stop : Stop} (h : f.countStep s = (.error stop, t)) :
    ∃ failure, stop = .failed ⟨failure, none⟩ := by
  rw [countStep_apply] at h
  split at h
  · split at h
    · cases h
      exact ⟨_, rfl⟩
    · cases h
  · cases h

theorem withinStep_lead (d : Context) (visit : Visit) :
    Run.WithinStep (f.lead step index d visit) := by
  have moved : Run.WithinStep (do
      let next ← (liftM (Traced.ofExcept (f.nextIndex step visit index)) : Run Nat)
      pure (d, next)) :=
    (Run.closed_withinStep.lift _).bind fun _ => Run.closed_withinStep.pure _
  exact Run.closed_withinStep.ite ((Run.closed_withinStep.report _).bind fun _ => moved) moved

/-- What is left of a step after its visit fails exactly if the next step is not there. -/
theorem lead_apply (f : Frame) (step : Step) (index : Nat) (d : Context) (visit : Visit)
    (s : Session) :
    ∃ t, f.lead step index d visit s
      = ((f.nextIndex step visit index).map (fun next => (d, next)) |>.mapError
          fun failure => .failed ⟨failure, none⟩, t) := by
  unfold lead
  by_cases outermost : f.depth = 0
  · rw [if_pos outermost]
    cases f.nextIndex step visit index <;> exact ⟨_, rfl⟩
  · rw [if_neg outermost]
    cases f.nextIndex step visit index <;> exact ⟨_, rfl⟩

/-- A step that fails by itself stops with the failure; the step is not named yet. -/
theorem advance_of_failsIn {failure : Failure} (h : f.FailsIn caller step index c s failure) :
    ∃ t, f.advance caller step index c s = (.error (.failed ⟨failure, none⟩), t) := by
  cases h with
  | counting fails =>
    obtain ⟨failure, same⟩ := exists_failure_of_countStep fails
    cases same
    exact ⟨_, Run.bind_of_error fails⟩
  | visiting begun fails =>
    obtain ⟨failure, same⟩ := (closed_approach Run.closed_withinStep).fails fails
    cases same
    rw [advance_eq]
    exact ⟨_, (Run.bind_of_ok begun).trans (Run.bind_of_error fails)⟩
  | returning calls returned fails =>
    rename_i call sub outputs error u v t
    obtain ⟨m, begun, reached⟩ := calls
    obtain ⟨failure, same⟩ := (closed_finish Run.closed_withinStep _ _ _).fails fails
    cases same
    rw [advance_eq]
    have resumed : (caller sub.flow sub.inputs).inSubFlow sub.flow u = (.ok outputs, v) :=
      Run.inSubFlow_of_ok returned
    refine ⟨t, ?_⟩
    rw [Run.bind_of_ok begun, Run.bind_of_ok reached]
    exact (Run.bind_of_ok resumed).trans (Run.bind_of_error fails)
  | leading begun visited fails =>
    rename_i d visit m t
    obtain ⟨u, led⟩ := lead_apply f step index d visit t
    rw [fails] at led
    rw [advance_visit]
    exact ⟨u, (Run.bind_of_ok begun).trans ((Run.bind_of_ok visited).trans led)⟩

/-- A step that calls a flow stops when the flow does. -/
theorem advance_of_calls {call : FlowCall} {sub : SubCall} {u t : Session} {stop : Stop}
    (calls : f.Calls step c s call sub u)
    (stops : caller sub.flow sub.inputs u = (.error stop, t)) :
    f.advance caller step index c s = (.error (stop.inSubFlow sub.flow), t) := by
  obtain ⟨m, begun, reached⟩ := calls
  rw [advance_eq, Run.bind_of_ok begun, Run.bind_of_ok reached]
  exact Run.bind_of_error (Run.inSubFlow_of_error stops)

/-- A step that fails does so by itself or in the flow that it calls. -/
theorem failsIn_or_calls {error : FlowError}
    (h : f.advance caller step index c s = (.error (.failed error), t)) :
    f.FailsIn caller step index c s error.failure ∨
      ∃ call sub u inner, f.Calls step c s call sub u
        ∧ caller sub.flow sub.inputs u = (.error (.failed inner), t) := by
  rw [advance_visit] at h
  rcases Run.bind_apply_eq_error h with fails | ⟨_, m, begun, h⟩
  · exact Or.inl (.counting fails)
  rcases Run.bind_apply_eq_error h with fails | ⟨⟨d, visit⟩, u, visited, h⟩
  · rw [visit_eq] at fails
    rcases Run.bind_apply_eq_error fails with fails | ⟨approach, u, reached, fails⟩
    · exact Or.inl (.visiting begun fails)
    cases approach with
    | ended d visit => cases fails
    | calling call sub =>
      have calls : f.Calls step c s call sub u := ⟨m, begun, reached⟩
      rcases Run.bind_apply_eq_error fails with fails | ⟨outputs, v, returned, fails⟩
      · obtain ⟨inner, ran⟩ := Run.inSubFlow_eq_error fails
        exact Or.inr ⟨call, sub, u, inner, calls, ran⟩
      · exact Or.inl (.returning calls (Run.inSubFlow_eq_ok returned) fails)
  · obtain ⟨v, led⟩ := lead_apply f step index d visit u
    have ended := led.symm.trans h
    cases hn : f.nextIndex step visit index with
    | ok next =>
      rw [hn] at ended
      cases ended
    | error failure =>
      rw [hn] at ended
      cases ended
      exact Or.inl (.leading begun visited hn)

end Frame

/-! ## §3 Failing in a run of flows -/

namespace Engine

open Tabletop.Frame

/-- A run of a flow fails. The places are the steps at which the flows were, from this flow inwards
to the one in which the failure arose; none is before the first step, or at the outputs. -/
inductive FailsAt (e : Engine) : (levels depth : Nat) → (id : String) → (inputs : Fields) →
    Session → (places : List (Option String)) → Failure → Prop
  | tooDeep {depth : Nat} {id : String} {inputs : Fields} {s : Session} :
      FailsAt e 0 depth id inputs s [none] (.tooDeep id e.config.maxFlowDepth)
  | unknownFlow {levels depth : Nat} {id : String} {inputs : Fields} {s : Session}
      (missing : e.catalog.flow? id = none) :
      FailsAt e (levels + 1) depth id inputs s [none] (.unknownFlow id)
  | starting {levels depth : Nat} {id : String} {inputs : Fields} {s : Session} {flow : Flow}
      {failure : Failure} (found : e.catalog.flow? id = some flow)
      (fails : (Frame.start ⟨e, flow, depth⟩ inputs).outcome = .error failure) :
      FailsAt e (levels + 1) depth id inputs s [none] failure
  /-- A step fails by itself. -/
  | step {levels depth : Nat} {id : String} {inputs : Fields} {s t : Session} {flow : Flow}
      {index : Nat} {step : Step} {c : Context} {failure : Failure}
      (found : e.catalog.flow? id = some flow)
      (before : AtBoundary ⟨e, flow, depth⟩ (e.runFlow levels (depth + 1)) inputs s t index c)
      (here : flow.steps[index]? = some step)
      (fails : FailsIn ⟨e, flow, depth⟩ (e.runFlow levels (depth + 1)) step index c t failure) :
      FailsAt e (levels + 1) depth id inputs s [some step.id] failure
  /-- The flow that a step calls fails. -/
  | called {levels depth : Nat} {id : String} {inputs : Fields} {s t u : Session} {flow : Flow}
      {index : Nat} {step : Step} {c : Context} {call : FlowCall} {sub : SubCall}
      {places : List (Option String)} {failure : Failure}
      (found : e.catalog.flow? id = some flow)
      (before : AtBoundary ⟨e, flow, depth⟩ (e.runFlow levels (depth + 1)) inputs s t index c)
      (here : flow.steps[index]? = some step)
      (calls : Calls ⟨e, flow, depth⟩ step c t call sub u)
      (within : FailsAt e levels (depth + 1) sub.flow sub.inputs u places failure) :
      FailsAt e (levels + 1) depth id inputs s (some step.id :: places) failure
  | ending {levels depth : Nat} {id : String} {inputs : Fields} {s t : Session} {flow : Flow}
      {index : Nat} {c : Context} {failure : Failure} (found : e.catalog.flow? id = some flow)
      (before : AtBoundary ⟨e, flow, depth⟩ (e.runFlow levels (depth + 1)) inputs s t index c)
      (ended : flow.steps[index]? = none)
      (fails : Frame.outputs ⟨e, flow, depth⟩ c = .error failure) :
      FailsAt e (levels + 1) depth id inputs s [none] failure

end Engine

namespace Frame

variable {f : Frame} {caller : Caller} {inputs : Fields} {s t u : Session} {index : Nat}
  {c : Context}

theorem runSteps_succ {step : Step} (here : f.flow.steps[index]? = some step) (fuel : Nat) :
    f.runSteps caller (fuel + 1) index c
      = (f.advance caller step index c).atStep step.id >>= fun next =>
          f.runSteps caller fuel next.2 next.1 := by
  rw [runSteps, here]

/-- Whatever the fuel, a run goes on from each of its boundaries, unless its fuel is used up before
it is there. -/
theorem AtBoundary.goes_on (h : f.AtBoundary caller inputs s t index c) (fuel : Nat) :
    let run : Run Context := liftM (f.start inputs) >>= f.runSteps caller fuel 0
    (∃ left, run s = f.runSteps caller left index c t) ∨ (run s).1 = .error .outOfFuel := by
  intro run
  induction h with
  | start begun => exact Or.inl ⟨fuel, Run.bind_of_ok begun⟩
  | step _ here done ih =>
    rcases ih with ⟨left, same⟩ | out
    · cases left with
      | zero =>
        refine Or.inr ?_
        rw [same]
        rfl
      | succ left =>
        refine Or.inl ⟨left, ?_⟩
        rw [same, runSteps_succ here, Run.bind_of_ok done]
    · exact Or.inr out

/-- A loop over steps that fails does so at a step, which its error names. -/
theorem exists_step_of_runSteps {fuel : Nat} {error : FlowError}
    (before : f.AtBoundary caller inputs s t index c)
    (h : f.runSteps caller fuel index c t = (.error (.failed error), u)) :
    ∃ m i step d inner, f.AtBoundary caller inputs s m i d ∧ f.flow.steps[i]? = some step
      ∧ f.advance caller step i d m = (.error (.failed inner), u) := by
  induction fuel generalizing t index c with
  | zero => cases h
  | succ fuel ih =>
    cases here : f.flow.steps[index]? with
    | none =>
      rw [runSteps, here] at h
      cases h
    | some step =>
      rw [runSteps_succ here] at h
      rcases Run.bind_apply_eq_error h with fails | ⟨⟨d, next⟩, m, done, h⟩
      · obtain ⟨inner, ran⟩ := Run.atStep_eq_error fails
        exact ⟨t, index, step, c, inner, before, here, ran⟩
      · exact ih (before.step here done) h

end Frame

/-! ## §4 Errors that tell the way -/

/-- The error tells the places and the failure: it names the first place, the errors beneath it name
the others in order, and all have the kind of the failure. -/
structure FlowError.Tells (error : FlowError) (wrapped : List FlowError)
    (places : List (Option String)) (failure : Failure) : Prop where
  places : places = (error :: wrapped).map (·.step)
  causes : error.failure.causes = wrapped.map Cause.flow ++ failure.causes
  kinds : ∀ w ∈ error :: wrapped, w.failure.kind = failure.kind

theorem FlowError.tells_here (failure : Failure) (step : Option String) :
    Tells ⟨failure, step⟩ [] [step] failure where
  places := rfl
  causes := rfl
  kinds := by
    intro w hw
    rw [List.mem_singleton.mp hw]

/-- The error of a flow around tells of one place more. -/
theorem FlowError.Tells.inSubFlow {inner : FlowError} {wrapped : List FlowError}
    {places : List (Option String)} {failure : Failure} (h : inner.Tells wrapped places failure)
    (flow id : String) :
    Tells ⟨.subFlow flow inner.failure inner.step, some id⟩ (inner :: wrapped) (some id :: places)
      failure where
  places := congrArg (some id :: ·) h.places
  causes := congrArg (Cause.flow inner :: ·) h.causes
  kinds := by
    intro w hw
    rcases List.mem_cons.mp hw with rfl | hw
    · exact h.kinds inner List.mem_cons_self
    · exact h.kinds w hw

/-! ## §5 Runs that fail -/

namespace Engine

open Tabletop.Frame

variable {e : Engine} {levels depth : Nat} {id : String} {inputs : Fields} {s t u : Session}
  {flow : Flow} {index : Nat} {c : Context}

theorem runFlow_succ (found : e.catalog.flow? id = some flow) :
    e.runFlow (levels + 1) depth id inputs = (do
      let f : Frame := ⟨e, flow, depth⟩
      let c ← (liftM (f.start inputs) : Run Context) >>=
        f.runSteps (e.runFlow levels (depth + 1)) f.stepFuel 0
      Traced.ofExcept (f.outputs c)) := by
  rw [runFlow, found]
  simp only [bind_assoc]
  rfl

/-- A step that stops is where the run stops, unless its fuel is used up before. -/
theorem runFlow_of_advance {step : Step} {stop : Stop} (found : e.catalog.flow? id = some flow)
    (before : AtBoundary ⟨e, flow, depth⟩ (e.runFlow levels (depth + 1)) inputs s t index c)
    (here : flow.steps[index]? = some step)
    (stops : Frame.advance ⟨e, flow, depth⟩ (e.runFlow levels (depth + 1)) step index c t
      = (.error stop, u)) :
    (e.runFlow (levels + 1) depth id inputs s).1 = .error .outOfFuel ∨
      (e.runFlow (levels + 1) depth id inputs s).1 = .error (stop.atStep step.id) := by
  rw [runFlow_succ found]
  rcases before.goes_on (Frame.stepFuel ⟨e, flow, depth⟩) with ⟨left, same⟩ | out
  · cases left with
    | zero => exact Or.inl (Run.bind_fst_of_error (by rw [same]; rfl))
    | succ left =>
      rw [runSteps_succ here, Run.bind_of_error (Run.atStep_of_error stops)] at same
      exact Or.inr (Run.bind_fst_of_error (by rw [same]))
  · exact Or.inl (Run.bind_fst_of_error out)

/-- The error of a run that fails tells where, unless the fuel of a flow is used up before. -/
theorem outcome_of_failsAt {places : List (Option String)} {failure : Failure}
    (h : e.FailsAt levels depth id inputs s places failure) :
    (e.runFlow levels depth id inputs s).1 = .error .outOfFuel ∨
      ∃ error wrapped, (e.runFlow levels depth id inputs s).1 = .error (.failed error)
        ∧ error.Tells wrapped places failure := by
  induction h with
  | tooDeep => exact Or.inr ⟨_, [], rfl, FlowError.tells_here _ none⟩
  | unknownFlow missing =>
    rw [runFlow, missing]
    exact Or.inr ⟨_, [], rfl, FlowError.tells_here _ none⟩
  | starting found fails =>
    refine Or.inr ⟨_, [], ?_, FlowError.tells_here _ none⟩
    rw [runFlow_succ found]
    exact Run.bind_fst_of_error (Run.bind_fst_of_error (Run.traced_fst_of_error fails _))
  | step found before here fails =>
    obtain ⟨u, stops⟩ := advance_of_failsIn fails
    rcases runFlow_of_advance found before here stops with out | failed
    · exact Or.inl out
    · exact Or.inr ⟨_, [], failed, FlowError.tells_here _ _⟩
  | called found before here calls _ ih =>
    rcases ih with out | ⟨inner, wrapped, failed, tells⟩
    · rcases runFlow_of_advance found before here
        (advance_of_calls calls (Prod.ext out rfl)) with out | out
      · exact Or.inl out
      · exact Or.inl out
    · rcases runFlow_of_advance found before here
        (advance_of_calls calls (Prod.ext failed rfl)) with out | failed
      · exact Or.inl out
      · exact Or.inr ⟨_, inner :: wrapped, failed, tells.inSubFlow _ _⟩
  | ending found before ended fails =>
    rw [runFlow_succ found]
    rcases before.goes_on (Frame.stepFuel ⟨e, _, _⟩) with ⟨left, same⟩ | out
    · cases left with
      | zero => exact Or.inl (Run.bind_fst_of_error (by rw [same]; rfl))
      | succ left =>
        refine Or.inr ⟨_, [], ?_, FlowError.tells_here _ none⟩
        rw [runSteps, ended] at same
        rw [Run.bind_of_ok same]
        exact Run.traced_fst_of_error fails _
    · exact Or.inl (Run.bind_fst_of_error out)

/-- A run that fails does so somewhere. -/
theorem exists_failsAt {error : FlowError}
    (h : e.runFlow levels depth id inputs s = (.error (.failed error), t)) :
    ∃ places failure, e.FailsAt levels depth id inputs s places failure := by
  induction levels generalizing depth id inputs s error with
  | zero => exact ⟨_, _, .tooDeep⟩
  | succ levels ih =>
    cases found : e.catalog.flow? id with
    | none => exact ⟨_, _, .unknownFlow found⟩
    | some flow =>
      rw [runFlow, found] at h
      rcases Run.bind_apply_eq_error h with fails | ⟨c, m, begun, h⟩
      · obtain ⟨failure, fails, _⟩ := Run.traced_eq_error fails
        exact ⟨_, _, .starting found fails⟩
      rcases Run.bind_apply_eq_error h with fails | ⟨d, u, went, fails⟩
      · obtain ⟨m, i, step, d, inner, before, here, fails⟩ :=
          exists_step_of_runSteps (.start begun) fails
        rcases failsIn_or_calls fails with within | ⟨call, sub, u, inner, calls, ran⟩
        · exact ⟨_, _, .step found before here within⟩
        · obtain ⟨places, failure, within⟩ := ih ran
          exact ⟨_, _, .called found before here calls within⟩
      · obtain ⟨last, before, ended⟩ := atBoundary_of_runSteps (.start begun) went
        obtain ⟨failure, fails, _⟩ := Run.traced_eq_error fails
        exact ⟨_, _, .ending found before ended fails⟩

/-- Errors tell where they come from. A run that fails does so somewhere. And wherever that is, the
error of the run names the step at which the outermost flow was, if it was at one; its source chain
begins with one error for each call of a flow on the way, which names the step of the flow one level
further down, if it was at one; and all these errors are of the kind of the failure where it arose,
whose own sources come after them. -/
theorem execute_error_tells (e : Engine) (host : Host) (id : String) (inputs : Fields)
    {error : FlowError} (failed : (e.execute host id inputs).result = .error (.failed error)) :
    (∃ places failure,
      e.FailsAt (e.config.maxFlowDepth + 1) 0 id inputs { host } places failure) ∧
    ∀ places failure, e.FailsAt (e.config.maxFlowDepth + 1) 0 id inputs { host } places failure →
      error.step = places.head?.join ∧ error.failure.kind = failure.kind ∧
      ∃ wrapped : List FlowError, places = (error :: wrapped).map (·.step)
        ∧ error.failure.causes = wrapped.map Cause.flow ++ failure.causes
        ∧ ∀ w ∈ wrapped, w.failure.kind = failure.kind := by
  have ran : e.runFlow (e.config.maxFlowDepth + 1) 0 id inputs { host }
      = (.error (.failed error), _) := Prod.ext failed rfl
  refine ⟨exists_failsAt ran, ?_⟩
  intro places failure origin
  rcases outcome_of_failsAt origin with out | ⟨told, wrapped, stops, tells⟩
  · rw [ran] at out
    cases out
  · rw [ran] at stops
    cases stops
    have kinds := List.forall_mem_cons.mp tells.kinds
    refine ⟨?_, kinds.1, wrapped, tells.places, tells.causes, kinds.2⟩
    rw [tells.places]
    rfl

/-- A flow that calls one that calls a third one, whose only action has no value to set. -/
def journey : Engine where
  catalog := { flows := [
    ("journey", { id := "journey", steps := [{
      id := "ride", typeName := "flow_call", settings := [("flow_id", .text "stable")] }] }),
    ("stable", { id := "stable", steps := [{
      id := "saddle", typeName := "flow_call", settings := [("flow_id", .text "tack")] }] }),
    ("tack", { id := "tack", steps := [{
      id := "buckle", typeName := "completion"
      actions := [⟨"set_value", .mapping [("path", .text "variables.strap")]⟩] }] })] }

/-- The steps that the errors beneath a failure name. -/
def wrappedSteps (failure : Failure) : List (Option String) :=
  failure.causes.filterMap fun
    | .flow error => some error.step
    | _ => none

/-- The error of the journey names its steps, from the ride down to the buckle. -/
theorem journey_error_tells :
    ∃ error places failure, (journey.execute {} "journey" []).result = .error (.failed error)
      ∧ journey.FailsAt (journey.config.maxFlowDepth + 1) 0 "journey" [] { host := {} } places
        failure
      ∧ error.step = some "ride" ∧ places.head?.join = some "ride"
      ∧ wrappedSteps error.failure = [some "saddle", some "buckle"]
      ∧ error.failure.kind = .missingField ∧ failure.kind = .missingField := by
  let tells : Except Stop Fields → Bool
    | .error (.failed error) => decide (error.step = some "ride"
        ∧ wrappedSteps error.failure = [some "saddle", some "buckle"]
        ∧ error.failure.kind = .missingField)
    | _ => false
  have told : tells (journey.execute {} "journey" []).result = true := by decide +kernel
  cases failed : (journey.execute {} "journey" []).result with
  | ok outputs =>
    rw [failed] at told
    cases told
  | error stop =>
    cases stop with
    | outOfFuel =>
      rw [failed] at told
      cases told
    | failed error =>
      rw [failed] at told
      obtain ⟨step, steps, kind⟩ := of_decide_eq_true told
      obtain ⟨⟨places, failure, origin⟩, tells⟩ := execute_error_tells journey {} "journey" [] failed
      obtain ⟨first, kinds, _⟩ := tells places failure origin
      exact ⟨error, places, failure, rfl, origin, step, first.symm.trans step, steps, kind,
        kinds.symm.trans kind⟩

end Engine

end Tabletop
