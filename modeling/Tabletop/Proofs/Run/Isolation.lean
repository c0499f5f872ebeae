/-
Tabletop.Proofs.Run.Isolation — flows that are called are isolated.

A flow that is called and the flow that calls it share the counts of the run
and the host, nothing else. Of the caller's context the sub-flow sees the
inputs of the call only: with these it runs the same way whatever else the
context holds and whatever has been reported before. The caller's context
changes at its records of the call and where outputs are stored; what is
read elsewhere stays.

  §1 Runs that do not look at the log
  §2 Flows do not look at the log
  §3 What a call leaves
  §4 Isolation
-/
import Tabletop.Proofs.Context.Local
import Tabletop.Proofs.Run.Boundary
import Tabletop.Proofs.Run.Parts

namespace Tabletop

/-! ## §1 Runs that do not look at the log -/

/-- The session with another log. -/
def Session.withLog (s : Session) (log : List Event) : Session := { s with log := log }

/-- The sessions have the same host and the same counts. -/
structure Session.Alike (s t : Session) : Prop where
  host : s.host = t.host
  transitions : s.transitions = t.transitions
  subFlows : s.subFlows = t.subFlows

theorem Session.Alike.withLog_eq {s t : Session} (h : s.Alike t) : s.withLog t.log = t := by
  obtain ⟨host, transitions, subFlows⟩ := h
  unfold withLog
  rw [host, transitions, subFlows]

namespace Run

variable {α β : Type}

/-- The run does the same after any events, and adds the same events to them. -/
def Oblivious (x : Run α) : Prop :=
  ∀ s : Session, ∃ events, ∀ log, x (s.withLog log) = ((x s).1, (x s).2.withLog (events ++ log))

/-- After a run that is oblivious, its session has the new events in front of the old ones. -/
theorem Oblivious.of_eq {x : Run α} (h : Oblivious x) {s t : Session} {outcome : Except Stop α}
    (ran : x s = (outcome, t)) :
    ∃ events, ∀ log, x (s.withLog log) = (outcome, t.withLog (events ++ log)) := by
  obtain ⟨events, same⟩ := h s
  refine ⟨events, fun log => ?_⟩
  rw [same, ran]

theorem oblivious_throw (stop : Stop) : Oblivious (throw stop : Run α) :=
  fun _ => ⟨[], fun _ => rfl⟩

theorem oblivious_traced (t : Traced α) : Oblivious (traced t) := by
  intro s
  refine ⟨t.events.reverse, fun log => ?_⟩
  rw [traced_apply, traced_apply]
  rfl

theorem Oblivious.bind {x : Run α} {next : α → Run β} (hx : Oblivious x)
    (hn : ∀ a, Oblivious (next a)) : Oblivious (x >>= next) := by
  intro s
  cases ran : x s with
  | mk outcome m =>
    obtain ⟨first, same⟩ := hx.of_eq ran
    cases outcome with
    | error stop =>
      refine ⟨first, fun log => ?_⟩
      rw [bind_apply, bind_apply, ran, same]
    | ok a =>
      obtain ⟨second, same'⟩ := hn a m
      refine ⟨second ++ first, fun log => ?_⟩
      rw [bind_apply, bind_apply, ran, same, List.append_assoc]
      exact same' (first ++ log)

theorem Oblivious.tryCatch {x : Run α} {handle : Stop → Run α} (hx : Oblivious x)
    (hh : ∀ stop, Oblivious (handle stop)) : Oblivious (tryCatch x handle) := by
  intro s
  cases ran : x s with
  | mk outcome m =>
    obtain ⟨first, same⟩ := hx.of_eq ran
    cases outcome with
    | ok a =>
      refine ⟨first, fun log => ?_⟩
      rw [tryCatch_apply, tryCatch_apply, ran, same]
    | error stop =>
      obtain ⟨second, same'⟩ := hh stop m
      refine ⟨second ++ first, fun log => ?_⟩
      rw [tryCatch_apply, tryCatch_apply, ran, same, List.append_assoc]
      exact same' (first ++ log)

/-- The warning before another attempt is one more event, if there is one. -/
theorem retryWarning_withLog (task : StepTask) (attempt : Nat) (stop : Stop) (s : Session) :
    ∃ events, ∀ log, retryWarning task attempt stop (s.withLog log)
      = (retryWarning task attempt stop s).withLog (events ++ log) := by
  cases stop with
  | failed error => exact ⟨[_], fun _ => rfl⟩
  | outOfFuel => exact ⟨[], fun _ => rfl⟩

theorem oblivious_attempts {x : Run α} (hx : Oblivious x) (task : StepTask) (again : Stop → Bool)
    (more done : Nat) :
    Oblivious (attempts again (retryWarning task) (fun s => x s) more done : Run α) := by
  induction more generalizing done with
  | zero => exact hx
  | succ more ih =>
    intro s
    cases ran : x s with
    | mk outcome m =>
      obtain ⟨first, same⟩ := hx.of_eq ran
      cases outcome with
      | ok a =>
        refine ⟨first, fun log => ?_⟩
        simp only [attempts, ran, same]
      | error stop =>
        cases accepted : again stop with
        | false =>
          refine ⟨first, fun log => ?_⟩
          simp only [attempts, ran, same, accepted]
          rfl
        | true =>
          obtain ⟨warning, warned⟩ := retryWarning_withLog task (done + 1) stop m
          obtain ⟨second, same'⟩ := ih (done + 1) (retryWarning task (done + 1) stop m)
          refine ⟨second ++ (warning ++ first), fun log => ?_⟩
          simp only [attempts, ran, same, accepted, if_true, warned, List.append_assoc]
          exact same' _

theorem closed_oblivious : Closed @Oblivious where
  traced := oblivious_traced
  bind := Oblivious.bind
  get := by
    intro α next each same s
    obtain ⟨events, h⟩ := each s s
    refine ⟨events, fun log => ?_⟩
    change next (s.withLog log) (s.withLog log) = _
    rw [same (s.withLog log) s rfl]
    exact h log
  setHost := fun _ _ => ⟨[], fun _ => rfl⟩
  nextSubFlow := fun _ => ⟨[], fun _ => rfl⟩
  retrying := fun _ task _ h => oblivious_attempts h task _ _ _

/-! ## §2 Flows do not look at the log -/

theorem Oblivious.atStep {x : Run α} (h : Oblivious x) (id : String) :
    Oblivious (atStep id x) := by
  refine h.tryCatch fun stop => ?_
  cases stop <;> exact oblivious_throw _

theorem Oblivious.inSubFlow {x : Run α} (h : Oblivious x) (flow : String) :
    Oblivious (inSubFlow flow x) := by
  refine h.tryCatch fun stop => ?_
  cases stop <;> exact oblivious_throw _

end Run

namespace Frame

variable {f : Frame} {caller : Caller} {step : Step} {call : FlowCall}

theorem oblivious_visit (called : ∀ flow inputs, Run.Oblivious (caller flow inputs))
    (c : Context) : Run.Oblivious (f.visit caller step c) := by
  rw [visit_eq]
  refine (closed_approach Run.closed_oblivious).bind fun approach => ?_
  cases approach with
  | calling call sub =>
    exact ((called _ _).inSubFlow _).bind fun _ => closed_finish Run.closed_oblivious _ _ _
  | ended c visit => exact Run.closed_oblivious.pure _

theorem oblivious_countStep : Run.Oblivious f.countStep := by
  refine Run.Oblivious.bind (fun _ => ⟨[], fun _ => rfl⟩) fun count => ?_
  split
  · exact Run.closed_oblivious.ite (Run.closed_oblivious.fail _) (Run.closed_oblivious.pure _)
  · exact Run.closed_oblivious.pure _

theorem oblivious_advance (called : ∀ flow inputs, Run.Oblivious (caller flow inputs))
    (index : Nat) (c : Context) : Run.Oblivious (f.advance caller step index c) := by
  have moved : ∀ v : Visit × Context, Run.Oblivious (do
      let next ← (liftM (Traced.ofExcept (f.nextIndex step v.1 index)) : Run Nat)
      pure (v.2, next)) := fun v =>
    (Run.closed_oblivious.lift _).bind fun _ => Run.closed_oblivious.pure _
  refine oblivious_countStep.bind fun _ => (oblivious_visit called c).bind fun v => ?_
  exact Run.closed_oblivious.ite ((Run.closed_oblivious.report _).bind fun _ => moved (v.2, v.1))
    (moved (v.2, v.1))

theorem oblivious_runSteps (called : ∀ flow inputs, Run.Oblivious (caller flow inputs))
    (fuel index : Nat) (c : Context) : Run.Oblivious (f.runSteps caller fuel index c) := by
  induction fuel generalizing index c with
  | zero => exact Run.oblivious_throw _
  | succ fuel ih =>
    unfold runSteps
    split
    · exact Run.closed_oblivious.pure c
    · exact ((oblivious_advance called index c).atStep _).bind fun _ => ih _ _

end Frame

/-- A flow runs the same way whatever has been reported before. -/
theorem Engine.oblivious_runFlow (e : Engine) (levels depth : Nat) (id : String)
    (inputs : Fields) : Run.Oblivious (e.runFlow levels depth id inputs) := by
  induction levels generalizing depth id inputs with
  | zero => exact Run.closed_oblivious.fail _
  | succ levels ih =>
    unfold runFlow
    split
    · exact Run.closed_oblivious.fail _
    · refine (Run.closed_oblivious.lift _).bind fun c => ?_
      refine (Frame.oblivious_runSteps (fun _ _ => ih _ _ _) _ _ _).bind fun c => ?_
      exact Run.closed_oblivious.lift _

namespace Frame

open Traced

variable {f : Frame} {step : Step} {call : FlowCall} {c d : Context}

/-! ## §3 What a call leaves -/

/-- The path leads past everything that the call writes in the context of the caller. -/
structure Untouched (step : Step) (call : FlowCall) (path : Path) : Prop where
  record : Path.Diverges ["sub_flows"] path
  result : Path.Diverges (Path.split s!"{step.place}.result") path
  targets : ∀ e ∈ call.outputs, Path.Diverges (Path.split (trim e.2)) path

theorem lookup_put {path : String} {v : Value} {q : Path}
    (h : (c.put path v).outcome = .ok d) (apart : (Path.split path).Diverges q) :
    d.lookup q = c.lookup q :=
  Context.lookup_write_of_diverges (Context.outcome_writeTraced_eq_ok.mp h) apart

/-- A write below a namespace leaves what does not begin with its name. -/
theorem lookup_put_root {root path : String} {v : Value} {q : Path}
    (h : (c.put path v).outcome = .ok d) (leads : ∃ more, Path.split path = root :: more)
    (apart : Path.Diverges [root] q) : d.lookup q = c.lookup q := by
  obtain ⟨more, hp⟩ := leads
  refine lookup_put h ?_
  rw [hp]
  exact Path.diverges_append.mpr (Or.inl apart)

/-- What is kept about sub-flows is kept in one namespace, whatever the ids of flows. -/
theorem split_record {path : String} (h : ∃ tail, path.toList = "sub_flows.".toList ++ tail) :
    ∃ more, Path.split path = "sub_flows" :: more := by
  obtain ⟨tail, h⟩ := h
  have root : path.toList = "sub_flows".toList ++ '.' :: tail := by
    rw [h, show "sub_flows.".toList = "sub_flows".toList ++ ['.'] by decide, List.append_assoc]
    rfl
  exact ⟨_, Path.split_root (by decide) (by decide) root⟩

theorem lookup_storeOutputs {outputs : Fields} {paths : Entries String} {q : Path}
    (h : (f.storeOutputs outputs paths c).outcome = .ok d)
    (apart : ∀ e ∈ paths, (Path.split (trim e.2)).Diverges q) : d.lookup q = c.lookup q := by
  induction paths generalizing c with
  | nil =>
    cases h
    rfl
  | cons e rest ih =>
    obtain ⟨output, path⟩ := e
    obtain ⟨here, further⟩ := List.forall_mem_cons.mp apart
    unfold storeOutputs at h
    cases hv : Entries.get? outputs output with
    | none =>
      simp only [hv] at h
      exact ih h further
    | some v =>
      simp only [hv] at h
      obtain ⟨m, stored, others⟩ := outcome_bind_eq_ok.mp h
      obtain ⟨w, state, _, written⟩ := outcome_store_eq_ok.mp stored
      rw [ih others further]
      exact Context.lookup_write_of_diverges written here

/-- The place of a record. -/
def recordPlace (flow : String) (number : Nat) : String := s!"sub_flows.{flow}_{natText number}"

theorem split_recordPlace (flow : String) (number : Nat) (tail : String) :
    ∃ more, Path.split (recordPlace flow number ++ tail) = "sub_flows" :: more := by
  have spelled : (recordPlace flow number ++ tail).toList
      = "sub_flows.".toList ++ (flow ++ "_" ++ natText number ++ tail).toList := by
    unfold recordPlace
    simp only [toString, String.toList_append, List.append_assoc]
  exact split_record ⟨_, spelled⟩

/-- Entering a call of a known flow whose inputs the context gives is counting and recording it. -/
theorem enter_eq {flow : String} {inputs : Fields} (named : presentId? call.flow = some flow)
    (known : (f.engine.catalog.flow? flow).isNone = false)
    (resolved : c.resolveFields call.inputs = .ok inputs) :
    f.enter step call c = (do
      let number ← Run.nextSubFlow
      let d ← c.put (recordPlace flow number) (subFlowRecord flow inputs)
      pure ⟨flow, inputs, recordPlace flow number, d⟩) := by
  unfold enter
  simp only [named, known, Bool.false_eq_true, if_false, resolved]
  have given : Traced.resolved (Except.ok inputs) = Traced.ofExcept (.ok inputs) := rfl
  rw [given, Run.lift_ok_bind]
  rfl

/-- Only the record of a call can be refused once its inputs are resolved. -/
theorem enter_apply {flow : String} {inputs : Fields} (named : presentId? call.flow = some flow)
    (known : (f.engine.catalog.flow? flow).isNone = false)
    (resolved : c.resolveFields call.inputs = .ok inputs) (s : Session) {recorded : Traced Context}
    (hr : c.put (recordPlace flow (s.subFlows + 1)) (subFlowRecord flow inputs) = recorded) :
    f.enter step call c s
      = ((recorded.outcome.map fun d =>
            (⟨flow, inputs, recordPlace flow (s.subFlows + 1), d⟩ : SubCall)).mapError
          fun failure => .failed ⟨failure, none⟩,
        { s with subFlows := s.subFlows + 1, log := recorded.events.reverse ++ s.log }) := by
  have count : Run.nextSubFlow s = (.ok (s.subFlows + 1), { s with subFlows := s.subFlows + 1 }) :=
    rfl
  rw [enter_eq named known resolved, Run.bind_apply, count]
  dsimp only
  rw [hr]
  change (Run.traced recorded >>= _) _ = _
  rw [Run.bind_apply, Run.traced_apply]
  cases recorded.outcome <;> rfl

/-- A call that is entered is of a flow that there is, with inputs that the context gives. -/
theorem exists_of_enter {s t : Session} {sub : SubCall}
    (h : f.enter step call c s = (.ok sub, t)) :
    ∃ flow inputs, presentId? call.flow = some flow
      ∧ (f.engine.catalog.flow? flow).isNone = false
      ∧ c.resolveFields call.inputs = .ok inputs := by
  unfold enter at h
  cases named : presentId? call.flow with
  | none =>
    rw [named] at h
    cases h
  | some flow =>
    simp only [named] at h
    cases known : (f.engine.catalog.flow? flow).isNone with
    | true =>
      rw [if_pos known] at h
      cases h
    | false =>
      rw [if_neg (by rw [known]; exact Bool.false_ne_true)] at h
      obtain ⟨inputs, _, resolved, _⟩ := Run.bind_apply_eq_ok h
      have resolved : (Traced.resolved (c.resolveFields call.inputs)).outcome = .ok inputs :=
        Run.gives_lift ⟨_, _, resolved⟩
      cases given : c.resolveFields call.inputs with
      | error e =>
        rw [given] at resolved
        cases resolved
      | ok fields => exact ⟨flow, fields, rfl, known, rfl⟩

/-- What a call that is entered has done. -/
theorem enter_eq_ok {s t : Session} {sub : SubCall} (h : f.enter step call c s = (.ok sub, t)) :
    ∃ flow inputs d, presentId? call.flow = some flow
      ∧ (f.engine.catalog.flow? flow).isNone = false
      ∧ c.resolveFields call.inputs = .ok inputs
      ∧ (c.put (recordPlace flow (s.subFlows + 1)) (subFlowRecord flow inputs)).outcome = .ok d
      ∧ sub = ⟨flow, inputs, recordPlace flow (s.subFlows + 1), d⟩
      ∧ t.Alike { s with subFlows := s.subFlows + 1 } := by
  obtain ⟨flow, inputs, named, known, resolved⟩ := exists_of_enter h
  cases hr : c.put (recordPlace flow (s.subFlows + 1)) (subFlowRecord flow inputs) with
  | mk events outcome =>
    rw [enter_apply named known resolved s hr] at h
    cases outcome with
    | error failure => cases h
    | ok d =>
      cases h
      exact ⟨flow, inputs, d, named, known, resolved, by rw [hr], rfl, ⟨rfl, rfl, rfl⟩⟩

/-! ## §4 Isolation -/

theorem lookup_enter {sub : SubCall} {q : Path} (h : (f.enter step call c).Gives sub)
    (apart : Path.Diverges ["sub_flows"] q) : sub.context.lookup q = c.lookup q := by
  obtain ⟨s, t, h⟩ := h
  obtain ⟨flow, inputs, d, _, _, _, recorded, rfl, _⟩ := enter_eq_ok h
  have place := split_recordPlace flow (s.subFlows + 1) ""
  rw [String.append_empty] at place
  exact lookup_put_root recorded place apart

/-- The record of a call that is entered is kept among those of sub-flows. -/
theorem split_place_of_enter {sub : SubCall} (h : (f.enter step call c).Gives sub)
    (tail : String) : ∃ more, Path.split (sub.place ++ tail) = "sub_flows" :: more := by
  obtain ⟨s, t, h⟩ := h
  obtain ⟨flow, inputs, d, _, _, _, _, rfl, _⟩ := enter_eq_ok h
  exact split_recordPlace flow (s.subFlows + 1) tail

theorem lookup_leave {sub : SubCall} {outputs : Fields} {q : Path}
    (h : (f.leave step call sub outputs).Gives d)
    (place : ∀ tail, ∃ more, Path.split (sub.place ++ tail) = "sub_flows" :: more)
    (apart : Untouched step call q) : d.lookup q = sub.context.lookup q := by
  obtain ⟨c₁, returned, h⟩ := Run.gives_bind h
  obtain ⟨c₂, kept, h⟩ := Run.gives_bind h
  calc d.lookup q = c₂.lookup q := lookup_storeOutputs (Run.gives_lift h) apart.targets
    _ = c₁.lookup q := lookup_put (Run.gives_lift kept) apart.result
    _ = sub.context.lookup q :=
        lookup_put_root (Run.gives_lift returned) (place ".outputs") apart.record

/-- A call leaves what is read past everything that it writes. -/
theorem lookup_flowCall {caller : Caller} {q : Path} (h : (f.flowCall caller step call c).Gives d)
    (apart : Untouched step call q) : d.lookup q = c.lookup q := by
  rw [flowCall_eq] at h
  obtain ⟨sub, entered, h⟩ := Run.gives_bind h
  obtain ⟨outputs, _, h⟩ := Run.gives_bind h
  exact (lookup_leave h (split_place_of_enter entered) apart).trans
    (lookup_enter entered apart.record)

/-- A write fails as the write of the context does, and for no other reason. -/
theorem put_cases (c : Context) (path : String) (v : Value) :
    (∃ error, c.set path v = .error error ∧ (c.put path v).outcome = .error (.context error)) ∨
    ∃ d, c.set path v = .ok d ∧ (c.put path v).outcome = .ok d := by
  unfold Context.set Context.put
  cases hw : c.write .plain v (Path.split path) with
  | error error =>
    refine Or.inl ⟨error, rfl, ?_⟩
    unfold Context.writeTraced
    rw [hw]
    rfl
  | ok d => exact Or.inr ⟨d, rfl, Context.outcome_writeTraced_eq_ok.mpr hw⟩

/-- From another context that gives the same inputs a call is entered the same way, unless the
record is refused there. -/
theorem enter_of_same_inputs {c₁ c₂ : Context} {s₁ s₂ t₁ : Session} {sub₁ : SubCall}
    (inputs : c₁.resolveFields call.inputs = c₂.resolveFields call.inputs)
    (alike : s₁.Alike s₂)
    (entered : f.enter step call c₁ s₁ = (.ok sub₁, t₁)) :
    (∃ error t₂, c₂.set sub₁.place (subFlowRecord sub₁.flow sub₁.inputs) = .error error
      ∧ f.enter step call c₂ s₂ = (.error (.failed ⟨.context error, none⟩), t₂)) ∨
    ∃ sub₂ t₂, f.enter step call c₂ s₂ = (.ok sub₂, t₂) ∧ sub₂.flow = sub₁.flow
      ∧ sub₂.inputs = sub₁.inputs ∧ t₁.Alike t₂ := by
  obtain ⟨flow, given, d₁, named, known, resolved, _, rfl, after⟩ := enter_eq_ok entered
  rw [inputs] at resolved
  have count : s₂.subFlows = s₁.subFlows := alike.subFlows.symm
  have recorded := put_cases c₂ (recordPlace flow (s₁.subFlows + 1)) (subFlowRecord flow given)
  cases hr : c₂.put (recordPlace flow (s₂.subFlows + 1)) (subFlowRecord flow given) with
  | mk events outcome =>
    rw [← count, hr] at recorded
    rcases recorded with ⟨error, refused, rfl⟩ | ⟨d₂, _, rfl⟩
    · rw [count] at refused
      exact Or.inl ⟨error, _, refused, enter_apply named known resolved s₂ hr⟩
    · have same : t₁.Alike { s₂ with
          subFlows := s₂.subFlows + 1, log := events.reverse ++ s₂.log } :=
        ⟨after.host.trans alike.host, after.transitions.trans alike.transitions,
          by rw [after.subFlows, count]⟩
      exact Or.inr ⟨_, _, enter_apply named known resolved s₂ hr, rfl, rfl, same⟩

/-- Flows that are called are isolated. A call that succeeds leaves the caller's context as it was
wherever what it writes does not lead: its records under `sub_flows`, the result of the step, and
the paths at which outputs are stored. A call is its entry, a run of the flow on the inputs of the
call, and what is done with the outputs; and from any other context that gives the same inputs, at
the same depth, with the same counts and the same host, either the record is refused before the flow
runs, or the flow runs on the same inputs and does the same: it has the same outcome, reports the
same events and leaves the same host and counts. -/
theorem flowCall_isolated (f : Frame) (levels : Nat) (step : Step) (call : FlowCall) :
    let caller := f.engine.runFlow levels (f.depth + 1)
    (∀ c d s t, f.flowCall caller step call c s = (.ok d, t) →
      ∀ path, Untouched step call (Path.split path) → d.get path = c.get path) ∧
    (∀ c, f.flowCall caller step call c = (do
      let sub ← f.enter step call c
      let outputs ← (caller sub.flow sub.inputs).inSubFlow sub.flow
      f.leave step call sub outputs)) ∧
    ∀ (c₁ c₂ : Context) (s₁ s₂ : Session) sub₁ t₁,
      c₁.resolveFields call.inputs = c₂.resolveFields call.inputs →
      s₁.Alike s₂ → f.enter step call c₁ s₁ = (.ok sub₁, t₁) →
        (∃ error t₂, c₂.set sub₁.place (subFlowRecord sub₁.flow sub₁.inputs) = .error error
          ∧ f.enter step call c₂ s₂ = (.error (.failed ⟨.context error, none⟩), t₂)) ∨
        ∃ sub₂ t₂ outcome events, ∃ after : Session, f.enter step call c₂ s₂ = (.ok sub₂, t₂)
          ∧ sub₂.flow = sub₁.flow ∧ sub₂.inputs = sub₁.inputs
          ∧ caller sub₁.flow sub₁.inputs t₁ = (outcome, after.withLog (events ++ t₁.log))
          ∧ caller sub₂.flow sub₂.inputs t₂ = (outcome, after.withLog (events ++ t₂.log)) := by
  intro caller
  refine ⟨fun c d s t called path apart => lookup_flowCall ⟨s, t, called⟩ apart,
    fun c => flowCall_eq f caller step call c, ?_⟩
  intro c₁ c₂ s₁ s₂ sub₁ t₁ inputs alike entered
  rcases enter_of_same_inputs inputs alike entered with
    refused | ⟨sub₂, t₂, entered₂, flow, given, after⟩
  · exact Or.inl refused
  · obtain ⟨events, ran⟩ := f.engine.oblivious_runFlow levels (f.depth + 1) sub₁.flow sub₁.inputs t₁
    refine Or.inr ⟨sub₂, t₂, _, events, _, entered₂, flow, given, ran t₁.log, ?_⟩
    rw [flow, given, ← after.withLog_eq]
    exact ran t₂.log

/-- A flow that sends for what is on its list. -/
def errand : Frame where
  engine := { catalog := { flows := [("fetch", {
    id := "fetch"
    inputs := [{ id := "thing", typeName := "str" }]
    outputs := [{ id := "found", typeName := "str" }]
    locals := [{ id := "gold", typeName := "int" }]
    steps := [{
      id := "buy"
      typeName := "completion"
      actions := [
        ⟨"set_value", .mapping [("path", .text "variables.gold"), ("value", .int 0)]⟩,
        ⟨"set_value", .mapping [("path", .text "outputs.found"),
          ("value", .text "\x7b\x7b inputs.thing \x7d\x7d")]⟩] }] })] } }
  flow := { id := "errand" }
  depth := 0

/-- The step that sends. -/
def send : Step := { id := "send", typeName := "flow_call" }

/-- The call of the step. -/
def fetching : FlowCall where
  flow := some "fetch"
  inputs := [("thing", .text "\x7b\x7b variables.list \x7d\x7d")]
  outputs := [("found", "variables.bag")]

/-- A context with some gold and a list. -/
def purse (gold : Int) : Context :=
  (errand.blank.putSlot "variables" "gold" ⟨.int gold, .plain⟩).putSlot "variables" "list"
    ⟨.text "rope", .plain⟩

/-- The list is what the call gives, whatever gold there is. -/
theorem resolved_fetching {c : Context}
    (h : ((c.resolveFields fetching.inputs).toOption.any fun fields =>
      fields.map (fun e => (e.1, e.2.asText?)) == [("thing", some "rope")]) = true) :
    c.resolveFields fetching.inputs = .ok [("thing", .text "rope")] := by
  cases hr : c.resolveFields fetching.inputs with
  | error e =>
    rw [hr] at h
    cases h
  | ok fields =>
    rw [hr] at h
    have listed : fields.map (fun e => (e.1, e.2.asText?)) = [("thing", some "rope")] := eq_of_beq h
    match fields, listed with
    | [(name, .text thing)], listed =>
      cases listed
      rfl

/-- The gold of the caller stays, and what is bought does not depend on it. -/
theorem errand_leaves_gold :
    let caller := errand.engine.runFlow 1 1
    (∃ d t, errand.flowCall caller send fetching (purse 7) { host := {} } = (.ok d, t)
      ∧ (d.get "variables.bag").bind Value.asText? = some "rope"
      ∧ d.get "variables.gold" = some (.int 7)) ∧
    ∃ sub₁ sub₂ t₁ t₂ outputs events, ∃ after : Session,
      errand.enter send fetching (purse 7) { host := {} } = (.ok sub₁, t₁)
        ∧ errand.enter send fetching (purse 0) { host := {} } = (.ok sub₂, t₂)
        ∧ caller sub₁.flow sub₁.inputs t₁ = (.ok outputs, after.withLog (events ++ t₁.log))
        ∧ caller sub₂.flow sub₂.inputs t₂ = (.ok outputs, after.withLog (events ++ t₂.log)) := by
  intro caller
  obtain ⟨leaves, _, same⟩ := flowCall_isolated errand 1 send fetching
  constructor
  · have bought : ((errand.flowCall caller send fetching (purse 7) { host := {} }).1.toOption.any
        fun d => (d.get "variables.bag").bind Value.asText? == some "rope") = true := by
      decide +kernel
    obtain ⟨d, t, called, bag⟩ := Run.exists_of_test bought
    have apart : Untouched send fetching (Path.split "variables.gold") :=
      ⟨by decide +kernel, by decide +kernel, by decide +kernel⟩
    exact ⟨d, t, called, eq_of_beq bag, (leaves _ _ _ _ called _ apart).trans (by rfl)⟩
  · let first : Run Fields := errand.enter send fetching (purse 7) >>= fun sub =>
      caller sub.flow sub.inputs
    have ran : ((first { host := {} }).1.toOption.any fun _ => true) = true := by decide +kernel
    have entered : ((errand.enter send fetching (purse 0) { host := {} }).1.toOption.any
        fun _ => true) = true := by decide +kernel
    obtain ⟨outputs, t, ran, _⟩ := Run.exists_of_test ran
    obtain ⟨sub₁, t₁, entered₁, ran⟩ := Run.bind_apply_eq_ok ran
    obtain ⟨sub₂, t₂, entered₂, _⟩ := Run.exists_of_test entered
    have inputs : (purse 7).resolveFields fetching.inputs
        = (purse 0).resolveFields fetching.inputs :=
      (resolved_fetching (by decide +kernel)).trans (resolved_fetching (by decide +kernel)).symm
    rcases same _ _ _ _ _ _ inputs ⟨rfl, rfl, rfl⟩ entered₁ with
      ⟨error, _, _, refused⟩ | ⟨sub, u, outcome, events, after, again, _, _, one, other⟩
    · rw [refused] at entered₂
      cases entered₂
    · have outcome_eq : outcome = .ok outputs := (congrArg Prod.fst (ran.symm.trans one)).symm
      subst outcome_eq
      exact ⟨sub₁, sub, t₁, u, outputs, events, after, entered₁, again, one, other⟩

end Frame

end Tabletop
