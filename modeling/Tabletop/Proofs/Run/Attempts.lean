/-
Tabletop.Proofs.Run.Attempts — the attempts that a visit makes.

What comes before the body of a step is done once in a visit: its data is
cleared, its condition and its settings are read, and the actions before it
run (`Frame.prepare`). Then its body is attempted, each time on the context
that these actions have left, and again only where the host has failed.

  §1 Attempts
  §2 The attempts at a body
  §3 Visits, taken apart at the body
  §4 The attempts of a visit
-/
import Tabletop.Proofs.Run.Replies

namespace Tabletop

/-! ## §1 Attempts -/

/-- One run of the body of a step. -/
structure Attempt where
  task : StepTask
  before : Session
  outcome : Except Stop Context
  after : Session

namespace Attempt

def succeeded (a : Attempt) : Bool := a.outcome.isOk

/-- The attempt has failed because of the host. -/
def FailedByHost (a : Attempt) : Prop :=
  ∃ error : FlowError, a.outcome = .error (.failed error) ∧ error.failure.kind = .collaborator

/-- The replies that the attempt has taken. -/
def spent (a : Attempt) : Replies := a.before.host.spent a.after.host

/-- The replies that attempts have taken, one after the other. -/
def spentIn : List Attempt → Replies
  | [] => {}
  | a :: rest => a.spent ++ spentIn rest

theorem spentIn_append (made more : List Attempt) :
    spentIn (made ++ more) = spentIn made ++ spentIn more := by
  induction made with
  | nil => rfl
  | cons a made ih => exact (congrArg _ ih).trans (Replies.append_assoc _ _ _).symm

/-- If attempts have taken no replies of a kind, then some of them have taken none. -/
theorem fewer_filter (test : Attempt → Bool) (made : List Attempt) :
    (spentIn (made.filter test)).Fewer (spentIn made) := by
  induction made with
  | nil => exact .refl _
  | cons a made ih =>
    by_cases kept : test a
    · rw [List.filter_cons_of_pos kept]
      exact (Replies.Fewer.refl a.spent).append ih
    · rw [List.filter_cons_of_neg kept]
      exact ih.skip a.spent

end Attempt

/-- The attempts that are made after a run, if it succeeds. -/
def Run.after {α : Type} (x : Run α) (made : α → Session → List Attempt) (s : Session) :
    List Attempt :=
  match x s with
  | (.ok a, t) => made a t
  | (.error _, _) => []

theorem Run.after_of_ok {α : Type} {x : Run α} {made : α → Session → List Attempt}
    {s t : Session} {a : α} (ran : x s = (.ok a, t)) : x.after made s = made a t := by
  unfold Run.after
  rw [ran]

theorem Run.after_of_error {α : Type} {x : Run α} {made : α → Session → List Attempt}
    {s t : Session} {stop : Stop} (ran : x s = (.error stop, t)) : x.after made s = [] := by
  unfold Run.after
  rw [ran]

/-! ## §2 The attempts at a body -/

/-- Attempts at a body, a number of them at most, from a session on to a result. Another one follows
only if the step is repeatable and the host has failed; it goes on where the one before it stopped,
with a warning. -/
inductive Tried (task : StepTask) (body : Run Context) :
    (limit : Nat) → Session → List Attempt → Except Stop Context × Session → Prop
  | last {limit : Nat} {s t : Session} {outcome : Except Stop Context}
      (ran : body s = (outcome, t)) :
      Tried task body (limit + 1) s [⟨task, s, outcome, t⟩] (outcome, t)
  | again {limit number : Nat} {s t : Session} {error : FlowError} {made : List Attempt}
      {result : Except Stop Context × Session} (ran : body s = (.error (.failed error), t))
      (repeatable : task.repeatable = true) (byHost : error.failure.kind = .collaborator)
      (rest : Tried task body limit
        { t with log := .warned (.retrying task.flow task.step number error.text) :: t.log }
        made result) :
      Tried task body (limit + 1) s (⟨task, s, .error (.failed error), t⟩ :: made) result

namespace Tried

variable {task : StepTask} {body : Run Context} {limit : Nat} {s : Session}
  {made : List Attempt} {result : Except Stop Context × Session}

theorem length_le (h : Tried task body limit s made result) : made.length ≤ limit := by
  induction h with
  | last ran => exact Nat.succ_le_succ (Nat.zero_le _)
  | again ran repeatable byHost rest ih => exact Nat.succ_le_succ ih

/-- Each attempt is the body, run from the session that it finds. -/
theorem ran (h : Tried task body limit s made result) :
    ∀ a ∈ made, body a.before = (a.outcome, a.after) := by
  induction h with
  | last ran => exact List.forall_mem_singleton.mpr ran
  | again ran repeatable byHost rest ih => exact List.forall_mem_cons.mpr ⟨ran, ih⟩

theorem ne_nil (h : Tried task body limit s made result) : made ≠ [] := by
  cases h <;> exact List.cons_ne_nil _ _

/-- Where one attempt is followed by another, the host has failed. -/
theorem failedByHost (h : Tried task body limit s made result) :
    ∀ a ∈ made.dropLast, a.FailedByHost := by
  induction h with
  | last ran => exact fun a none => absurd none List.not_mem_nil
  | again ran repeatable byHost rest ih =>
    rw [List.dropLast_cons_of_ne_nil rest.ne_nil]
    intro a ha
    rcases List.mem_cons.mp ha with rfl | ha
    · exact ⟨_, rfl, byHost⟩
    · exact ih a ha

/-- A step that is not repeatable is attempted once. -/
theorem length_eq_one (h : Tried task body limit s made result)
    (once : task.repeatable = false) : made.length = 1 := by
  cases h with
  | last ran => rfl
  | again ran repeatable byHost rest =>
    rw [once] at repeatable
    cases repeatable

end Tried

namespace Run

/-- The attempts at a body, listed. -/
def triesFrom (task : StepTask) (body : Run Context) : (more done : Nat) → Session → List Attempt
  | 0, _, s => [⟨task, s, (body s).1, (body s).2⟩]
  | more + 1, done, s =>
      ⟨task, s, (body s).1, (body s).2⟩ ::
        match body s with
        | (.error stop, t) =>
            if task.repeatable && stop.isOfHost then
              triesFrom task body more (done + 1) (retryWarning task (done + 1) stop t)
            else []
        | (.ok _, _) => []

/-- The attempts at a body if a number of them is asked for. -/
def tries (asked : Nat) (task : StepTask) (body : Run Context) (s : Session) : List Attempt :=
  triesFrom task body (attemptLimit asked - 1) 0 s

/-- A failure of the host has an error. -/
theorem exists_error_of_isOfHost {stop : Stop} (h : stop.isOfHost = true) :
    ∃ error, stop = .failed error ∧ error.failure.kind = .collaborator := by
  cases stop with
  | failed error => exact ⟨error, rfl, of_decide_eq_true h⟩
  | outOfFuel => cases h

theorem tried_from (task : StepTask) (body : Run Context) (more done : Nat) (s : Session) :
    Tried task body (more + 1) s (triesFrom task body more done s)
      (attempts (fun stop => task.repeatable && stop.isOfHost) (retryWarning task)
        (fun s => body s) more done s) := by
  induction more generalizing done s with
  | zero => exact .last rfl
  | succ more ih =>
    unfold triesFrom attempts
    cases ran : body s with
    | mk outcome t =>
      cases outcome with
      | ok d => exact .last ran
      | error stop =>
        by_cases again : (task.repeatable && stop.isOfHost) = true
        · simp only [again, if_true]
          obtain ⟨repeatable, ofHost⟩ := Bool.and_eq_true_iff.mp again
          obtain ⟨error, rfl, byHost⟩ := exists_error_of_isOfHost ofHost
          exact .again ran repeatable byHost (ih (done + 1) _)
        · simp only [again]
          exact .last ran

theorem attemptLimit_pos (asked : Nat) : 0 < attemptLimit asked := by
  unfold attemptLimit maxAttempts
  omega

/-- A body that is run again after failures of the host is attempted as listed. -/
theorem tried_tries (asked : Nat) (task : StepTask) (body : Run Context) (s : Session) :
    Tried task body (attemptLimit asked) s (tries asked task body s)
      (retrying asked task body s) := by
  have tried := tried_from task body (attemptLimit asked - 1) 0 s
  rwa [Nat.sub_add_cancel (attemptLimit_pos asked)] at tried

end Run

/-! ## §3 Visits, taken apart at the body -/

/-- The session after events are reported. -/
def Session.reported (s : Session) (events : List Event) : Session :=
  { s with log := events.reverse ++ s.log }

namespace Run

variable {α β : Type} {x : Traced α} {events : List Event}

theorem traced_of_ok {a : α} (h : x = ⟨events, .ok a⟩) (s : Session) :
    traced x s = (.ok a, s.reported events) := by
  rw [traced_apply, h]
  rfl

theorem traced_of_outcome {a : α} (h : x.outcome = .ok a) (s : Session) :
    traced x s = (.ok a, s.reported x.events) := traced_of_ok (by rw [← h]) s

theorem traced_of_error {failure : Failure} (h : x = ⟨events, .error failure⟩) (s : Session) :
    traced x s = (.error (.failed ⟨failure, none⟩), s.reported events) := by
  rw [traced_apply, h]
  rfl

end Run

namespace Traced

variable {α β : Type} {t : Traced α} {next : α → Traced β}

theorem bind_of_error {failure : Failure} (h : t.outcome = .error failure) :
    t >>= next = ⟨t.events, .error failure⟩ := by
  obtain ⟨events, outcome⟩ := t
  cases h
  rfl

theorem bind_of_ok {a : α} (h : t.outcome = .ok a) :
    t >>= next = ⟨t.events ++ (next a).events, (next a).outcome⟩ := by
  obtain ⟨events, outcome⟩ := t
  cases h
  rfl

end Traced

/-- How a visit begins. -/
inductive Admission where
  /-- Its condition does not hold. -/
  | skipped (c : Context)
  | admitted (kind : StepKind) (c : Context)

/-- What a visit has done before the body of the step. -/
inductive Prepared where
  | skipped (c : Context)
  | ready (kind : StepKind) (c : Context)

namespace Frame

variable {f : Frame} {caller : Caller} {step : Step} {c : Context} {s : Session}

/-- Clears the data of the step, tests its condition, and reads its settings if it holds. -/
def admission (step : Step) (c : Context) : Traced Admission := do
  let c ← c.put step.place (.mapping [])
  if ← meetsCondition step c then
    let kind ← Traced.ofExcept (kindOf step)
    pure (.admitted kind c)
  else pure (.skipped c)

/-- Runs the actions before the body, and announces it. -/
def precede (f : Frame) (step : Step) (c : Context) : Traced Context := do
  let c ← f.runActions step.preActions c
  if f.engine.announces then Traced.report (.started (f.taskOf step))
  pure c

/-- Does what comes before the body. -/
def prepare (f : Frame) (step : Step) (c : Context) : Traced Prepared := do
  match ← admission step c with
  | .skipped c => pure (.skipped c)
  | .admitted kind c => do
      let c ← f.precede step c
      pure (.ready kind c)

/-- A visit prepares its body once, and then runs it as often as the engine may. -/
theorem visit_eq_prepare (f : Frame) (caller : Caller) (step : Step) (c : Context) :
    f.visit caller step c = (do
      match ← f.prepare step c with
      | .skipped c => pure (c.clearAliases, ⟨skippedPayload step, none⟩)
      | .ready kind c => do
          let c ← Run.retrying f.engine.attempts (f.taskOf step) (f.stepBody caller step kind c)
          pure (completed step c)) := by
  change _ = Run.traced (f.prepare step c) >>= _
  unfold visit prepare admission
  simp only [Run.traced_bind, bind_assoc]
  congr 1
  funext c
  congr 1
  funext holds
  cases holds with
  | false => rfl
  | true =>
    simp only [if_true, Run.traced_bind, bind_assoc]
    congr 1
    funext kind
    change _ = Run.traced (f.precede step c >>= fun c => pure (Prepared.ready kind c)) >>= _
    unfold precede runTask
    simp only [Run.traced_bind, bind_assoc]
    congr 1
    funext c
    cases f.engine.announces <;> rfl

/-! ## §4 The attempts of a visit -/

/-- The announcement of the body. -/
def announcement (f : Frame) (step : Step) : List Event :=
  if f.engine.announces then [.started (f.taskOf step)] else []

/-- A visit from a session on, with its attempts and what comes of it. The actions before the body
run once if it gets so far and is not skipped; every attempt is made on the context that they
leave. -/
inductive Visited (f : Frame) (caller : Caller) (step : Step) (c : Context) (s : Session) :
    List Attempt → Except Stop (Context × Visit) × Session → Prop
  /-- The data cannot be cleared, or the condition or the settings cannot be read. -/
  | stopped {failure : Failure} (stopped : (admission step c).outcome = .error failure) :
      Visited f caller step c s []
        (.error (.failed ⟨failure, none⟩), s.reported (admission step c).events)
  /-- The condition does not hold. -/
  | skipped {d : Context} (skipped : (admission step c).outcome = .ok (.skipped d)) :
      Visited f caller step c s []
        (.ok (d.clearAliases, ⟨skippedPayload step, none⟩), s.reported (admission step c).events)
  /-- One of the actions before the body fails. -/
  | failed {kind : StepKind} {cleared : Context} {failure : Failure}
      (admitted : (admission step c).outcome = .ok (.admitted kind cleared))
      (before : (f.runActions step.preActions cleared).outcome = .error failure) :
      Visited f caller step c s []
        (.error (.failed ⟨failure, none⟩),
          s.reported ((admission step c).events ++ (f.runActions step.preActions cleared).events))
  /-- The actions before the body succeed. -/
  | tried {kind : StepKind} {cleared d : Context} {made : List Attempt}
      {outcome : Except Stop Context} {t : Session}
      (admitted : (admission step c).outcome = .ok (.admitted kind cleared))
      (before : (f.runActions step.preActions cleared).outcome = .ok d)
      (tried : Tried (f.taskOf step) (f.stepBody caller step kind d)
        (attemptLimit f.engine.attempts)
        (s.reported ((admission step c).events ++ (f.runActions step.preActions cleared).events
          ++ f.announcement step))
        made (outcome, t)) :
      Visited f caller step c s made (outcome.map (completed step), t)

/-- The attempts of a visit, if it makes any, are attempts at a body. -/
theorem Visited.eq_nil_or_tried {made : List Attempt}
    {result : Except Stop (Context × Visit) × Session} (h : f.Visited caller step c s made result) :
    made = [] ∨ ∃ body t ended,
      Tried (f.taskOf step) body (attemptLimit f.engine.attempts) t made ended := by
  cases h with
  | stopped stopped => exact Or.inl rfl
  | skipped skipped => exact Or.inl rfl
  | failed admitted before => exact Or.inl rfl
  | tried admitted before tried => exact Or.inr ⟨_, _, _, tried⟩

/-- A visit that succeeds without an attempt is skipped. -/
theorem Visited.skipped_of_ok {made : List Attempt}
    {result : Except Stop (Context × Visit) × Session} (h : f.Visited caller step c s made result)
    (ok : result.1.isOk = true) (none : made = []) :
    ∃ d, (admission step c).outcome = .ok (.skipped d) := by
  cases h with
  | stopped stopped => cases ok
  | skipped skipped => exact ⟨_, skipped⟩
  | failed admitted before => cases ok
  | tried admitted before tried => exact absurd none tried.ne_nil

/-- The attempts of a step at its body. -/
def attemptsReady (f : Frame) (caller : Caller) (step : Step) : Prepared → Session → List Attempt
  | .skipped _, _ => []
  | .ready kind d, t =>
      Run.tries f.engine.attempts (f.taskOf step) (f.stepBody caller step kind d) t

/-- The attempts of a visit. -/
def attemptsAt (f : Frame) (caller : Caller) (step : Step) (c : Context) (s : Session) :
    List Attempt :=
  (Run.traced (f.prepare step c)).after (f.attemptsReady caller step) s

theorem prepare_of_error {failure : Failure} (h : (admission step c).outcome = .error failure) :
    f.prepare step c = ⟨(admission step c).events, .error failure⟩ := Traced.bind_of_error h

theorem prepare_of_skipped {d : Context} (h : (admission step c).outcome = .ok (.skipped d)) :
    f.prepare step c = ⟨(admission step c).events, .ok (.skipped d)⟩ := by
  refine (Traced.bind_of_ok h).trans ?_
  exact congrArg (Traced.mk · _) (List.append_nil _)

theorem precede_of_error {failure : Failure}
    (h : (f.runActions step.preActions c).outcome = .error failure) :
    f.precede step c = ⟨(f.runActions step.preActions c).events, .error failure⟩ :=
  Traced.bind_of_error h

theorem precede_of_ok {d : Context} (h : (f.runActions step.preActions c).outcome = .ok d) :
    f.precede step c
      = ⟨(f.runActions step.preActions c).events ++ f.announcement step, .ok d⟩ := by
  refine (Traced.bind_of_ok h).trans ?_
  unfold announcement
  cases f.engine.announces <;> rfl

theorem prepare_of_admitted {kind : StepKind} {cleared : Context}
    (h : (admission step c).outcome = .ok (.admitted kind cleared)) :
    f.prepare step c = ⟨(admission step c).events ++ (f.precede step cleared).events,
      (f.precede step cleared).outcome.map (Prepared.ready kind)⟩ := by
  refine (Traced.bind_of_ok h).trans ?_
  cases outcome : (f.precede step cleared).outcome with
  | error failure =>
    have preceded : f.precede step cleared >>= (fun c => pure (Prepared.ready kind c)) = _ :=
      Traced.bind_of_error outcome
    simp only [preceded]
    rfl
  | ok d =>
    have preceded : f.precede step cleared >>= (fun c => pure (Prepared.ready kind c)) = _ :=
      Traced.bind_of_ok outcome
    simp only [preceded]
    exact congrArg (Traced.mk · _) (congrArg _ (List.append_nil _))

theorem visit_of_error (caller : Caller) {stop : Stop} {t : Session}
    (h : Run.traced (f.prepare step c) s = (.error stop, t)) :
    f.attemptsAt caller step c s = [] ∧ f.visit caller step c s = (.error stop, t) := by
  rw [visit_eq_prepare]
  exact ⟨Run.after_of_error h, Run.bind_of_error h⟩

theorem visit_of_skipped (caller : Caller) {d : Context} {t : Session}
    (h : Run.traced (f.prepare step c) s = (.ok (.skipped d), t)) :
    f.attemptsAt caller step c s = []
      ∧ f.visit caller step c s = (.ok (d.clearAliases, ⟨skippedPayload step, none⟩), t) := by
  rw [visit_eq_prepare]
  exact ⟨Run.after_of_ok h, Run.bind_of_ok h⟩

/-- A visit that has come to its body attempts it. -/
theorem visit_of_ready (caller : Caller) {kind : StepKind} {d : Context} {t : Session}
    (h : Run.traced (f.prepare step c) s = (.ok (.ready kind d), t)) :
    let body := f.stepBody caller step kind d
    let result := Run.retrying f.engine.attempts (f.taskOf step) body t
    f.attemptsAt caller step c s = Run.tries f.engine.attempts (f.taskOf step) body t
      ∧ f.visit caller step c s = (result.1.map (completed step), result.2) := by
  intro body result
  rw [visit_eq_prepare]
  refine ⟨Run.after_of_ok h, (Run.bind_of_ok h).trans ?_⟩
  cases ran : Run.retrying f.engine.attempts (f.taskOf step) body t with
  | mk outcome u =>
    have same : result = (outcome, u) := ran
    rw [same]
    cases outcome with
    | ok d => exact Run.bind_of_ok ran
    | error stop => exact Run.bind_of_error ran

/-- Every visit goes so. -/
theorem visited (f : Frame) (caller : Caller) (step : Step) (c : Context) (s : Session) :
    f.Visited caller step c s (f.attemptsAt caller step c s) (f.visit caller step c s) := by
  rcases begun : (admission step c).outcome with failure | d | ⟨kind, cleared⟩
  · have prepared := prepare_of_error (f := f) begun
    obtain ⟨none, result⟩ := visit_of_error caller (Run.traced_of_error prepared s)
    rw [none, result]
    exact .stopped begun
  · have prepared := prepare_of_skipped (f := f) begun
    obtain ⟨none, result⟩ := visit_of_skipped caller (Run.traced_of_ok prepared s)
    rw [none, result]
    exact .skipped begun
  · have prepared := prepare_of_admitted (f := f) begun
    cases before : (f.runActions step.preActions cleared).outcome with
    | error failure =>
      rw [precede_of_error before] at prepared
      obtain ⟨none, result⟩ := visit_of_error caller (Run.traced_of_error prepared s)
      rw [none, result]
      exact .failed begun before
    | ok d =>
      rw [precede_of_ok before, ← List.append_assoc] at prepared
      obtain ⟨made, result⟩ := visit_of_ready caller (Run.traced_of_ok prepared s)
      rw [made, result]
      exact .tried begun before (Run.tried_tries _ _ _ _)

end Frame

end Tabletop
