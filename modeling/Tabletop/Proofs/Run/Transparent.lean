/-
Tabletop.Proofs.Run.Transparent — further attempts do not show.

A run that succeeds gives what an engine gives that attempts each body once,
if its host is spared the replies that failed attempts have taken. The two
runs are followed side by side (`Run.Follows`): their counts agree, and the
hosts differ only in these replies. A failed attempt is dropped; its body is
attempted again on the same context, so nothing else of it is left.

  §1 Runs side by side
  §2 Attempts
  §3 Visits
  §4 The attempts of a run
  §5 Runs
-/
import Tabletop.Proofs.Run.Once
import Tabletop.Proofs.Run.Origin

namespace Tabletop

open Attempt

namespace Run

variable {α β : Type} {x y : Run α} {s m : Session} {few more : List Attempt}

/-! ## §1 Runs side by side -/

/-- If the run succeeds from the session on, the host has had the replies that its attempts have
taken, and the other run does the same without those of the failed ones. -/
def Follows (s : Session) (x y : Run α) (made : List Attempt) : Prop :=
  ∀ a t, x s = (.ok a, t) → s.host = (spentIn made).before t.host ∧
    ∀ (rest : Host) (s' : Session), rest.Alike t.host →
      s'.host = (spentIn (made.filter (·.succeeded))).before rest → s'.counts = s.counts →
        ∃ t', y s' = (.ok a, t') ∧ t'.host = rest ∧ t'.counts = t.counts

theorem Follows.congr {x' : Run α} (h : Follows s x y few) (same : x' s = x s) :
    Follows s x' y few := fun a t ran => h a t (same.symm.trans ran)

/-- A run that stops is followed by any. -/
theorem Follows.of_error {stop : Stop} (h : (x s).1 = .error stop) : Follows s x y few := by
  intro a t ran
  rw [ran] at h
  cases h

theorem Follows.bind_of_ok {next next' : α → Run β} {a : α} (first : Follows s x y few)
    (ran : x s = (.ok a, m)) (after : Follows m (next a) (next' a) more) :
    Follows s (x >>= next) (y >>= next') (few ++ more) := by
  intro b t ended
  rw [Run.bind_of_ok ran] at ended
  obtain ⟨start, repeats⟩ := first a m ran
  obtain ⟨between, repeatsNext⟩ := after b t ended
  refine ⟨by rw [spentIn_append, Replies.append_before, ← between, ← start], ?_⟩
  intro rest s' alike start' counts
  rw [List.filter_append, spentIn_append, Replies.append_before] at start'
  have alike' : ((spentIn (more.filter (·.succeeded))).before rest).Alike m.host := by
    rw [between]
    exact alike.before (fewer_filter _ more)
  obtain ⟨m', ran', host, counts'⟩ := repeats _ s' alike' start' counts
  rw [Run.bind_of_ok ran']
  exact repeatsNext rest m' alike host counts'

/-- What the run does after it has succeeded makes the attempts that come last. -/
theorem Follows.bind {next next' : α → Run β} {made : α → Session → List Attempt}
    (first : Follows s x y few)
    (after : ∀ a m, x s = (.ok a, m) → Follows m (next a) (next' a) (made a m)) :
    Follows s (x >>= next) (y >>= next') (few ++ x.after made s) := by
  cases ran : x s with
  | mk outcome m =>
    cases outcome with
    | error stop => exact .of_error (Run.bind_fst_of_error (congrArg Prod.fst ran))
    | ok a =>
      rw [after_of_ok ran]
      exact first.bind_of_ok ran (after a m ran)

/-- The run makes no attempts and takes no replies; of the session it depends on the counts only. -/
def Quiet (x : Run α) : Prop := ∀ s, Follows s x x []

theorem Follows.bind_quiet {next : α → Run β} (first : Follows s x y few)
    (after : ∀ a, Quiet (next a)) : Follows s (x >>= next) (y >>= next) few := by
  cases ran : x s with
  | mk outcome m =>
    cases outcome with
    | error stop => exact .of_error (Run.bind_fst_of_error (congrArg Prod.fst ran))
    | ok a =>
      rw [← List.append_nil few]
      exact first.bind_of_ok ran (after a m)

theorem Quiet.bind {next : α → Run β} (hx : Quiet x) (hnext : ∀ a, Quiet (next a)) :
    Quiet (x >>= next) := fun s => (hx s).bind_quiet hnext

/-- A run is quiet if it leaves the host as it is, wherever the counts are the same. -/
theorem Quiet.of_counts (h : ∀ s a t, x s = (.ok a, t) → t.host = s.host ∧
    ∀ s' : Session, s'.counts = s.counts →
      ∃ t', x s' = (.ok a, t') ∧ t'.host = s'.host ∧ t'.counts = t.counts) : Quiet x := by
  intro s a t ran
  obtain ⟨kept, repeats⟩ := h s a t ran
  refine ⟨kept ▸ (Replies.nil_before _).symm, ?_⟩
  intro rest s' _ start counts
  obtain ⟨t', ran', kept', counts'⟩ := repeats s' counts
  exact ⟨t', ran', kept'.trans (start.trans (Replies.nil_before rest)), counts'⟩

theorem quiet_traced (t : Traced α) : Quiet (traced t) := by
  refine .of_counts fun s a u ran => ?_
  rw [traced_apply] at ran
  obtain ⟨same, rfl⟩ := Prod.mk.inj ran
  refine ⟨rfl, fun s' counts => ⟨s'.reported t.events, ?_, rfl, counts⟩⟩
  exact (traced_apply t s').trans (Prod.ext same rfl)

theorem sequenced_quiet : Sequenced @Quiet := ⟨quiet_traced, Quiet.bind⟩

theorem quiet_nextSubFlow : Quiet nextSubFlow := by
  refine .of_counts fun s a t ran => ?_
  cases ran
  refine ⟨rfl, fun s' counts => ?_⟩
  obtain ⟨transitions, subFlows⟩ := Prod.mk.inj counts
  refine ⟨{ s' with subFlows := s'.subFlows + 1 }, ?_, rfl, ?_⟩
  · rw [← subFlows]
    rfl
  · exact congrArg₂ Prod.mk transitions (congrArg (· + 1) subFlows)

/-! ## §2 Attempts -/

/-- An attempt that succeeds is the body, with the replies that it takes. -/
theorem follows_attempt {task : StepTask} {body : Run Context} (takes : Takes body) {d : Context}
    {t : Session} (ran : body s = (.ok d, t)) : Follows s body body [⟨task, s, .ok d, t⟩] := by
  intro a u ended
  cases ran.symm.trans ended
  obtain ⟨used, start, repeats⟩ := takes.takes ran
  have spent : ∀ rest : Host, rest.Alike t.host →
      (spentIn [⟨task, s, .ok d, t⟩]).before rest = used.before rest := by
    intro rest alike
    have given := Host.spent_before used alike
    rw [← start] at given
    exact (congrArg (Replies.before · rest) (Replies.append_nil _)).trans given
  refine ⟨start.trans (spent _ (.refl _)).symm, ?_⟩
  intro rest s' alike start' counts
  obtain ⟨t', ran', host⟩ := repeats d rfl rest s' alike (start'.trans (spent rest alike))
  exact ⟨t', ran', host, ((takes.counts ran').trans counts).trans (takes.counts ran).symm⟩

/-- The warning before another attempt is all that changes before it. -/
theorem retryWarning_kept (task : StepTask) (attempt : Nat) (stop : Stop) (s : Session) :
    (retryWarning task attempt stop s).host = s.host
      ∧ (retryWarning task attempt stop s).counts = s.counts := by
  cases stop <;> exact ⟨rfl, rfl⟩

/-- A failed attempt after which the body is attempted again is dropped, with its replies. -/
theorem Follows.retry {task : StepTask} {body retried : Run Context} (takes : Takes body)
    {again : Run Context} {stop : Stop} {t : Session} (ran : body s = (.error stop, t))
    (goesOn : retried s = again m) (host : m.host = t.host) (counts : m.counts = t.counts)
    (after : Follows m again body more) :
    Follows s retried body (⟨task, s, .error stop, t⟩ :: more) := by
  intro d u ended
  obtain ⟨used, start, _⟩ := takes.takes ran
  obtain ⟨between, repeats⟩ := after d u (goesOn.symm.trans ended)
  constructor
  · have given := Host.spent_before used (Host.Alike.refl t.host)
    rw [← start] at given
    change _ = (s.host.spent t.host ++ spentIn more).before u.host
    rw [Replies.append_before, ← between, host, given, start]
  · intro rest s' alike start' counts'
    exact repeats rest s' alike start' (counts'.trans ((takes.counts ran).symm.trans counts.symm))

theorem follows_from {task : StepTask} {body : Run Context} (takes : Takes body)
    (more done : Nat) (s : Session) :
    Follows s (attempts (fun stop => task.repeatable && stop.isOfHost) (retryWarning task)
      (fun s => body s) more done) body (triesFrom task body more done s) := by
  induction more generalizing done s with
  | zero =>
    unfold triesFrom
    cases ran : body s with
    | mk outcome t =>
      cases outcome with
      | error stop => exact .of_error (congrArg Prod.fst ran)
      | ok d => exact follows_attempt takes ran
  | succ more ih =>
    unfold triesFrom
    cases ran : body s with
    | mk outcome t =>
      cases outcome with
      | ok d =>
        refine (follows_attempt takes ran).congr ?_
        simp only [attempts, ran]
      | error stop =>
        by_cases again : (task.repeatable && stop.isOfHost) = true
        · simp only [again, if_true]
          obtain ⟨host, counts⟩ := retryWarning_kept task (done + 1) stop t
          refine .retry takes ran ?_ host counts (ih (done + 1) _)
          simp only [attempts, ran, again, if_true]
        · refine .of_error (Eq.trans ?_ (congrArg Prod.fst ran))
          simp only [attempts, ran, again]
          rfl

/-- Attempts at a body follow the body. -/
theorem follows_tries {body : Run Context} (takes : Takes body) (asked : Nat) (task : StepTask)
    (s : Session) : Follows s (retrying asked task body) body (tries asked task body s) :=
  follows_from takes (attemptLimit asked - 1) 0 s

theorem Follows.inSubFlow {flow : String} (h : Follows s x y few) :
    Follows s (Run.inSubFlow flow x) (Run.inSubFlow flow y) few := by
  intro a t ran
  obtain ⟨start, repeats⟩ := h a t (inSubFlow_eq_ok ran)
  refine ⟨start, fun rest s' alike start' counts => ?_⟩
  obtain ⟨t', ran', left⟩ := repeats rest s' alike start' counts
  exact ⟨t', inSubFlow_of_ok ran', left⟩

theorem after_atStep (id : String) (x : Run α) (made : α → Session → List Attempt) (s : Session) :
    (Run.atStep id x).after made s = x.after made s := by
  unfold Run.after
  rw [atStep_apply]
  obtain ⟨outcome, t⟩ := x s
  cases outcome <;> rfl

theorem Follows.atStep {id : String} (h : Follows s x y few) :
    Follows s (Run.atStep id x) (Run.atStep id y) few := by
  intro a t ran
  obtain ⟨start, repeats⟩ := h a t (atStep_eq_ok ran)
  refine ⟨start, fun rest s' alike start' counts => ?_⟩
  obtain ⟨t', ran', left⟩ := repeats rest s' alike start' counts
  exact ⟨t', atStep_of_ok ran', left⟩

end Run

/-! ## §3 Visits -/

/-- The attempts that flows make, given their inputs and the session in which they run. -/
abbrev Trials := (flow : String) → (inputs : Fields) → Session → List Attempt

namespace Frame

variable {f : Frame} {caller caller' : Caller} {inner : Trials} {step : Step} {c d : Context}
  {s t : Session}

/-- What flows do for the first caller is followed by what they do for the other one. -/
def Followed (caller caller' : Caller) (inner : Trials) : Prop :=
  ∀ flow inputs s, Run.Follows s (caller flow inputs) (caller' flow inputs) (inner flow inputs s)

/-- The attempts that flows make when they are called. -/
def attemptsCalled (f : Frame) (inner : Trials) (step : Step) (call : FlowCall) (c : Context)
    (s : Session) : List Attempt :=
  (f.enter step call c).after (fun sub t => inner sub.flow sub.inputs t) s

/-- The attempts of a step at its body, with those of the flow that it calls in the place of the
call. -/
def attemptsBelow (f : Frame) (caller : Caller) (inner : Trials) (step : Step) :
    Prepared → Session → List Attempt
  | .ready (.flowCall call) d, t => f.attemptsCalled inner step call d t
  | p, t => f.attemptsReady caller step p t

/-- The attempts of a visit and of the flow that it calls. -/
def attemptsIn (f : Frame) (caller : Caller) (inner : Trials) (step : Step) (c : Context)
    (s : Session) : List Attempt :=
  (Run.traced (f.prepare step c)).after (f.attemptsBelow caller inner step) s

theorem follows_flowCall (called : Followed caller caller' inner) (call : FlowCall) :
    Run.Follows s (f.flowCall caller step call c) (f.flowCall caller' step call c)
      (f.attemptsCalled inner step call c s) := by
  have entered : Run.Quiet (f.enter step call c) :=
    sequenced_enter Run.sequenced_quiet Run.quiet_nextSubFlow call
  rw [flowCall_eq, flowCall_eq]
  refine (entered s).bind fun sub t _ => ?_
  exact (called sub.flow sub.inputs t).inSubFlow.bind_quiet fun outputs =>
    sequenced_leave Run.sequenced_quiet call sub outputs

/-- A step that is ready has had its settings read. -/
theorem kindOf_of_prepare {kind : StepKind} (h : (f.prepare step c).outcome = .ok (.ready kind d)) :
    kindOf step = .ok kind := by
  obtain ⟨how, admitted, h⟩ := Traced.outcome_bind_eq_ok.mp h
  obtain ⟨cleared, _, admitted⟩ := Traced.outcome_bind_eq_ok.mp admitted
  obtain ⟨holds, _, admitted⟩ := Traced.outcome_bind_eq_ok.mp admitted
  cases holds with
  | false =>
    cases admitted
    cases h
  | true =>
    obtain ⟨kind', read, admitted⟩ := Traced.outcome_bind_eq_ok.mp admitted
    cases admitted
    obtain ⟨_, _, h⟩ := Traced.outcome_bind_eq_ok.mp h
    cases h
    exact read

/-- The body of a step that calls a flow. -/
theorem follows_callBody (called : Followed caller caller' inner) (call : FlowCall) :
    Run.Follows s (f.stepBody caller step (.flowCall call) c)
      (f.stepBody caller' step (.flowCall call) c) (f.attemptsCalled inner step call c s) := by
  refine (follows_flowCall called call).bind_quiet fun d => ?_
  exact (Run.quiet_traced _).bind fun _ => (Run.quiet_traced _).bind fun _ => Run.quiet_traced _

/-- A body is attempted as often as the engine may, or once. -/
theorem follows_ready (called : Followed caller caller' inner) {kind : StepKind}
    (read : kindOf step = .ok kind) :
    Run.Follows s (Run.retrying f.engine.attempts (f.taskOf step) (f.stepBody caller step kind c))
      (f.stepBody caller' step kind c)
      (f.attemptsBelow caller inner step (.ready kind c) s) := by
  by_cases calls : ∃ call, kind = .flowCall call
  · obtain ⟨call, rfl⟩ := calls
    rw [Run.retrying_of_not_repeatable (not_repeatable_of_kindOf read)]
    exact follows_callBody called call
  · have alone : ∀ call, kind ≠ .flowCall call := fun call same => calls ⟨call, same⟩
    have body : f.stepBody caller' step kind c = f.stepBody caller step kind c :=
      (stepBody_caller alone caller').trans (stepBody_caller alone caller).symm
    have made : f.attemptsBelow caller inner step (.ready kind c) s
        = f.attemptsReady caller step (.ready kind c) s := by
      cases kind with
      | flowCall call => exact absurd rfl (alone call)
      | _ => rfl
    rw [body, made]
    exact Run.follows_tries (served_stepBody Run.served_takes caller alone) _ _ s

theorem follows_visit (called : Followed caller caller' inner) :
    Run.Follows s (f.visit caller step c) (f.once.visit caller' step c)
      (f.attemptsIn caller inner step c s) := by
  rw [visit_eq_prepare, once_visit]
  refine (Run.quiet_traced (f.prepare step c) s).bind fun p t prepared => ?_
  cases p with
  | skipped d => exact Run.sequenced_quiet.pure _ t
  | ready kind d =>
    have read : kindOf step = .ok kind := kindOf_of_prepare (Run.gives_traced ⟨s, t, prepared⟩)
    exact (follows_ready called read).bind_quiet fun d => Run.sequenced_quiet.pure _

theorem quiet_countStep : Run.Quiet f.countStep := by
  refine .of_counts fun s a t ran => ?_
  rw [countStep_apply] at ran
  obtain ⟨same, rfl⟩ := Prod.mk.inj ran
  refine ⟨rfl, fun s' counts => ?_⟩
  obtain ⟨transitions, subFlows⟩ := Prod.mk.inj counts
  refine ⟨{ s' with transitions := s'.transitions + 1 }, ?_, rfl, ?_⟩
  · rw [countStep_apply, transitions, same]
  · exact congrArg₂ Prod.mk (congrArg (· + 1) transitions) subFlows

theorem quiet_lead (index : Nat) (visit : Visit) : Run.Quiet (f.lead step index d visit) := by
  have moved : Run.Quiet (do
      let next ← (liftM (Traced.ofExcept (f.nextIndex step visit index)) : Run Nat)
      pure (d, next)) :=
    (Run.quiet_traced _).bind fun _ => Run.sequenced_quiet.pure _
  exact Run.sequenced_quiet.ite ((Run.sequenced_quiet.report _).bind fun _ => moved) moved

/-! ## §4 The attempts of a run -/

/-- The attempts that are made from a position on. -/
def attemptsFrom (f : Frame) (caller : Caller) (inner : Trials) :
    (fuel index : Nat) → Context → Session → List Attempt
  | 0, _, _, _ => []
  | fuel + 1, index, c, s =>
      match f.flow.steps[index]? with
      | none => []
      | some step =>
          f.countStep.after (fun _ m => f.attemptsIn caller inner step c m) s ++
            (f.advance caller step index c).after
              (fun reached t => f.attemptsFrom caller inner fuel reached.2 reached.1 t) s

theorem follows_advance (called : Followed caller caller' inner) (index : Nat) :
    Run.Follows s (f.advance caller step index c) (f.once.advance caller' step index c)
      (f.countStep.after (fun _ m => f.attemptsIn caller inner step c m) s) := by
  rw [advance_visit, advance_visit]
  refine (quiet_countStep s).bind fun _ m _ => ?_
  exact (follows_visit called).bind_quiet fun v => quiet_lead index v.2

theorem follows_runSteps (called : Followed caller caller' inner) (fuel index : Nat) (c : Context)
    (s : Session) :
    Run.Follows s (f.runSteps caller fuel index c) (f.once.runSteps caller' fuel index c)
      (f.attemptsFrom caller inner fuel index c s) := by
  induction fuel generalizing index c s with
  | zero => exact .of_error rfl
  | succ fuel ih =>
    unfold attemptsFrom
    cases here : f.flow.steps[index]? with
    | none =>
      rw [runSteps, here, runSteps, show f.once.flow.steps[index]? = none from here]
      exact Run.sequenced_quiet.pure c s
    | some step =>
      rw [runSteps_succ here, runSteps_succ (f := f.once) here]
      have first : Run.Follows s (f.advance caller step index c)
          (f.once.advance caller' step index c) _ := follows_advance called index
      dsimp only
      rw [← Run.after_atStep step.id (f.advance caller step index c)]
      exact first.atStep.bind fun reached t _ => ih reached.2 reached.1 t

end Frame

/-- The attempts that a run of a flow makes, with those of the flows that it calls. -/
def Engine.attempted (e : Engine) : (levels depth : Nat) → Trials
  | 0, _, _, _, _ => []
  | levels + 1, depth, id, inputs, s =>
      match e.catalog.flow? id with
      | none => []
      | some flow =>
          let f : Frame := ⟨e, flow, depth⟩
          (Run.traced (f.start inputs)).after (fun c t =>
            f.attemptsFrom (e.runFlow levels (depth + 1)) (e.attempted levels (depth + 1))
              f.stepFuel 0 c t) s

namespace Engine

open Tabletop.Frame

/-- A flow that is run by an engine is followed by its run with each body attempted once. -/
theorem followed_runFlow (e : Engine) (levels depth : Nat) :
    Followed (e.runFlow levels depth) (e.once.runFlow levels depth) (e.attempted levels depth) := by
  induction levels generalizing depth with
  | zero => exact fun id inputs s => .of_error rfl
  | succ levels ih =>
    intro id inputs s
    unfold attempted
    cases found : e.catalog.flow? id with
    | none =>
      rw [runFlow, found]
      exact .of_error rfl
    | some flow =>
      have same : e.once.catalog.flow? id = some flow := found
      rw [runFlow, found, runFlow, same]
      change Run.Follows s (runFrame ⟨e, flow, depth⟩ _ inputs)
        (runFrame (Frame.once ⟨e, flow, depth⟩) _ inputs) _
      unfold runFrame
      rw [once_start]
      refine (Run.quiet_traced (Frame.start ⟨e, flow, depth⟩ inputs) s).bind fun c t _ => ?_
      exact (follows_runSteps (ih (depth + 1)) _ 0 c t).bind_quiet fun d =>
        Run.quiet_traced (.ofExcept (outputs ⟨e, flow, depth⟩ d))

/-! ## §5 Runs -/

/-- Further attempts do not show. If a run succeeds, the host has given the replies that its
attempts have taken and has others left, and the run that attempts each body once gives the same
outputs where the host is without the replies of failed attempts. In every visit that gets so far
and is not skipped the actions before the body run once, before all attempts; a visit that succeeds
is skipped or has got so far. The body is attempted again only after the host has failed, and as
often as the engine may at most; and steps that call flows or branch are attempted at most once. -/
theorem retries_transparent (e : Engine) :
    (∀ (host : Host) (id : String) (inputs outputs : Fields),
      (e.execute host id inputs).result = .ok outputs →
        let made := e.attempted (e.config.maxFlowDepth + 1) 0 id inputs { host }
        let left := (e.execute host id inputs).host
        host = (spentIn made).before left ∧
          (e.once.execute ((spentIn (made.filter (·.succeeded))).before left) id inputs).result
            = .ok outputs) ∧
    ∀ (flow : Flow) (depth : Nat) (caller : Caller) (step : Step) (c : Context) (s : Session),
      let f : Frame := ⟨e, flow, depth⟩
      let made := f.attemptsAt caller step c s
      f.Visited caller step c s made (f.visit caller step c s) ∧
        ((f.visit caller step c s).1.isOk = true → made = [] →
          ∃ d, (admission step c).outcome = .ok (.skipped d)) ∧
        (∀ a ∈ made.dropLast, a.FailedByHost) ∧
        made.length ≤ attemptLimit e.attempts ∧
        (step.typeName = "flow_call" ∨ step.typeName = "conditional_branch" → made.length ≤ 1) := by
  constructor
  · intro host id inputs outputs succeeded made left
    have ran : e.runFlow (e.config.maxFlowDepth + 1) 0 id inputs { host }
        = (.ok outputs, (e.runFlow (e.config.maxFlowDepth + 1) 0 id inputs { host }).2) :=
      Prod.ext succeeded rfl
    obtain ⟨start, repeats⟩ :=
      followed_runFlow e (e.config.maxFlowDepth + 1) 0 id inputs { host } outputs _ ran
    refine ⟨start, ?_⟩
    obtain ⟨t, again, _⟩ := repeats left { host := _ } (.refl left) rfl rfl
    exact congrArg Prod.fst again
  · intro flow depth caller step c s f made
    have visited : f.Visited caller step c s made (f.visit caller step c s) :=
      f.visited caller step c s
    refine ⟨visited, visited.skipped_of_ok, ?_⟩
    rcases visited.eq_nil_or_tried with none | ⟨body, t, ended, tried⟩
    · rw [none]
      exact ⟨fun a ha => absurd ha List.not_mem_nil, Nat.zero_le _, fun _ => Nat.zero_le _⟩
    · refine ⟨tried.failedByHost, tried.length_le, fun named => ?_⟩
      have once : (f.taskOf step).repeatable = false := by
        change isRepeatable step.typeName = false
        rcases named with named | named <;> rw [named] <;> rfl
      exact (tried.length_eq_one once).le

/-- A flow of one roll, whose body may be attempted three times. -/
def omen : Engine where
  catalog := { flows := [("omen", {
    id := "omen"
    outputs := [{ id := "total", typeName := "int" }]
    steps := [{
      id := "roll", typeName := "dice_roll", settings := [("roll", .text "1d20")]
      preActions := [⟨"display_message", .text "the dice are cast"⟩]
      actions := [⟨"set_value", .mapping [("path", .text "outputs.total"),
        ("value", .text "\x7b\x7b result.total \x7d\x7d")]⟩] }] })] }
  attempts := 3

/-- The dice are jammed at first. -/
def jammed : Host where
  dice := some {
    replies := [fun _ => .error "dice jammed", fun text => .ok ⟨17, s!"{text} = 17"⟩,
      fun text => .ok ⟨4, s!"{text} = 4"⟩]
    past := fun _ => .error "dice lost" }

/-- The failed attempt does not show, nor does the reply that it has taken; and steps that call
flows are attempted once at most. -/
theorem omen_hides_jam :
    let made := omen.attempted (omen.config.maxFlowDepth + 1) 0 "omen" [] { host := jammed }
    let spared := (spentIn (made.filter (·.succeeded))).before (omen.execute jammed "omen" []).host
    made.map (·.succeeded) = [false, true] ∧
      spared.dice.map (fun script => script.replies.map fun roller => (roller "1d20").toOption)
        = some [some ⟨17, "1d20 = 17"⟩, some ⟨4, "1d20 = 4"⟩] ∧
      (∃ outputs, (omen.execute jammed "omen" []).result = .ok outputs ∧
        (Entries.get? outputs "total").map Value.render = some "17" ∧
        (omen.once.execute spared "omen" []).result = .ok outputs) ∧
      ∀ caller c s, (Frame.attemptsAt ⟨omen, {}, 0⟩ caller { typeName := "flow_call" } c s).length
        ≤ 1 := by
  intro made spared
  have test : ((omen.execute jammed "omen" []).result.toOption.any fun outputs =>
      (Entries.get? outputs "total").map Value.render == some "17") = true := by decide +kernel
  refine ⟨by decide +kernel, by decide +kernel, ?_, ?_⟩
  · cases ran : (omen.execute jammed "omen" []).result with
    | error stop =>
      rw [ran] at test
      cases test
    | ok outputs =>
      rw [ran] at test
      obtain ⟨_, same⟩ := (retries_transparent omen).1 jammed "omen" [] outputs ran
      exact ⟨outputs, rfl, eq_of_beq test, same⟩
  · intro caller c s
    have visits := (retries_transparent omen).2 {} 0 caller { typeName := "flow_call" } c s
    exact visits.2.2.2.2 (Or.inl rfl)

end Engine

end Tabletop
