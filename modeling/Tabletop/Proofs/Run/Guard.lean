/-
Tabletop.Proofs.Run.Guard — the bounds on steps and depth hold.

The steps of a run that are begun, those that are not too many, are listed
over all its flows (`Engine.begun`). The count that the flows of a run share
numbers them one after the other; so with a bound on steps the list is no
longer than the bound, the fuel of the loops over steps is never used up,
and the run comes to an end. No flow runs deeper than the configuration
allows. Where a bound stops the run, its error says so.

  §1 Counting runs
  §2 The steps that are begun
  §3 Their numbers
  §4 Their depths
  §5 The bounds
-/
import Tabletop.Proofs.Run.Origin

namespace Tabletop

/-! ## §1 Counting runs -/

/-- A step that is begun: its number in the run, and where it is. -/
structure Begun where
  number : Nat
  depth : Nat
  flow : String
  step : String

namespace Run

/-- The result of a run that begins the steps, after those counted in `s`. They are numbered one
after the other, up to the limit at most; if the run succeeds, its session counts them, and if it
stops, it is for a failure. -/
structure Accounts {α : Type} (limit : Nat) (s : Session) (result : Except Stop α × Session)
    (steps : List Begun) : Prop where
  bound : s.transitions + steps.length ≤ limit
  numbers : steps.map (·.number) = List.range' (s.transitions + 1) steps.length
  counted : ∀ a t, result = (.ok a, t) → t.transitions = s.transitions + steps.length
  stops : ∀ stop t, result = (.error stop, t) → ∃ error, stop = .failed error

variable {α β : Type} {limit : Nat} {x : Run α} {next : α → Run β} {s t : Session}
  {few more : List Begun}

/-- A run within a step begins none. -/
theorem WithinStep.accounts (hx : WithinStep x) (hs : s.transitions ≤ limit) :
    Accounts limit s (x s) [] where
  bound := hs
  numbers := rfl
  counted := fun _ _ ran => hx.counts ran
  stops := by
    intro stop t ran
    obtain ⟨failure, same⟩ := hx.fails ran
    exact ⟨_, same⟩

/-- A step that is counted comes before what it begins. -/
theorem Accounts.cons {m : Session} {result : Except Stop α × Session} {b : Begun}
    (h : Accounts limit m result more) (counted : m.transitions = s.transitions + 1)
    (number : b.number = m.transitions) : Accounts limit s result (b :: more) where
  bound := by
    have bound := h.bound
    rw [List.length_cons]
    omega
  numbers := by
    rw [List.map_cons, h.numbers, List.length_cons, List.range'_succ, number, counted]
  counted := by
    intro a t ran
    have ended := h.counted a t ran
    rw [List.length_cons]
    omega
  stops := h.stops

theorem Accounts.bind_of_ok {a : α} (first : Accounts limit s (x s) few) (ran : x s = (.ok a, t))
    (after : Accounts limit t (next a t) more) :
    Accounts limit s ((x >>= next) s) (few ++ more) := by
  have counted : t.transitions = s.transitions + few.length := first.counted a t ran
  rw [Run.bind_of_ok ran]
  constructor
  · have bound := after.bound
    rw [List.length_append]
    omega
  · have start : t.transitions + 1 = (s.transitions + 1) + few.length := by omega
    rw [List.map_append, first.numbers, after.numbers, start, List.length_append,
      List.range'_append_1]
  · intro b u h
    have ended := after.counted b u h
    rw [List.length_append]
    omega
  · exact after.stops

theorem Accounts.bind_of_error {stop : Stop} (first : Accounts limit s (x s) few)
    (ran : x s = (.error stop, t)) : Accounts limit s ((x >>= next) s) few := by
  rw [Run.bind_of_error ran]
  refine ⟨first.bound, first.numbers, nofun, ?_⟩
  intro stop' u h
  cases h
  exact first.stops stop t ran

/-- What goes on within a step adds nothing. -/
theorem Accounts.bind_withinStep (first : Accounts limit s (x s) few)
    (after : ∀ a, WithinStep (next a)) : Accounts limit s ((x >>= next) s) few := by
  cases ran : x s with
  | mk outcome u =>
    cases outcome with
    | error stop => exact first.bind_of_error ran
    | ok a =>
      have counted : u.transitions = s.transitions + few.length := first.counted a u ran
      have counts : u.transitions ≤ limit := by
        rw [counted]
        exact first.bound
      have joined := first.bind_of_ok ran ((after a).accounts counts)
      rwa [List.append_nil] at joined

/-- Renaming failures changes no counts. -/
theorem Accounts.mapError {result : Except Stop α × Session} {rename : Stop → Stop}
    (h : Accounts limit s result few)
    (failed : ∀ error, ∃ other, rename (.failed error) = .failed other) :
    Accounts limit s (result.1.mapError rename, result.2) few := by
  obtain ⟨outcome, u⟩ := result
  refine ⟨h.bound, h.numbers, ?_, ?_⟩
  · intro a t same
    cases outcome with
    | ok b =>
      cases same
      exact h.counted _ _ rfl
    | error stop => cases same
  · intro stop t same
    cases outcome with
    | ok b => cases same
    | error inner =>
      obtain ⟨error, rfl⟩ := h.stops inner u rfl
      cases same
      exact failed error

theorem Accounts.atStep {id : String} (h : Accounts limit s (x s) few) :
    Accounts limit s (Run.atStep id x s) few := by
  rw [atStep_apply]
  exact Accounts.mapError h fun _ => ⟨_, rfl⟩

theorem Accounts.inSubFlow {flow : String} (h : Accounts limit s (x s) few) :
    Accounts limit s (Run.inSubFlow flow x s) few := by
  rw [inSubFlow_apply]
  exact Accounts.mapError h fun _ => ⟨_, rfl⟩

end Run

/-! ## §2 The steps that are begun -/

/-- What a flow begins, given its inputs and the session in which it runs. -/
abbrev Beginnings := (flow : String) → (inputs : Fields) → Session → List Begun

namespace Frame

/-- The steps that are begun from one step: it, unless it is one too many, and then those of the
flow that it calls. -/
def begunIn (f : Frame) (inner : Beginnings) (step : Step) (c : Context) (s : Session) :
    List Begun :=
  match f.countStep s with
  | (.error _, _) => []
  | (.ok _, m) =>
      ⟨m.transitions, f.depth, f.flow.id, step.id⟩ ::
        match f.approach step c m with
        | (.ok (.calling _ sub), u) => inner sub.flow sub.inputs u
        | _ => []

/-- The steps that are begun from a position on. -/
def begunFrom (f : Frame) (caller : Caller) (inner : Beginnings) :
    (fuel index : Nat) → Context → Session → List Begun
  | 0, _, _, _ => []
  | fuel + 1, index, c, s =>
      match f.flow.steps[index]? with
      | none => []
      | some step =>
          f.begunIn inner step c s ++
            match f.advance caller step index c s with
            | (.ok (d, next), t) => f.begunFrom caller inner fuel next d t
            | _ => []

end Frame

/-- The steps that a run of a flow begins, with those of the flows that it calls. -/
def Engine.begun (e : Engine) : (levels depth : Nat) → Beginnings
  | 0, _, _, _, _ => []
  | levels + 1, depth, id, inputs, s =>
      match e.catalog.flow? id with
      | none => []
      | some flow =>
          let f : Frame := ⟨e, flow, depth⟩
          match Run.traced (f.start inputs) s with
          | (.ok c, t) =>
              f.begunFrom (e.runFlow levels (depth + 1)) (e.begun levels (depth + 1)) f.stepFuel 0 c t
          | _ => []

/-! ## §3 Their numbers -/

namespace Frame

variable {f : Frame} {caller : Caller} {inner : Beginnings} {limit : Nat} {step : Step}
  {index : Nat} {c : Context} {s : Session}

/-- A step within the limit is counted. -/
theorem countStep_of_le (bounded : f.engine.config.maxStepTransitions = some limit)
    (h : s.transitions + 1 ≤ limit) :
    f.countStep s = (.ok (), { s with transitions := s.transitions + 1 }) := by
  rw [countStep_apply, bounded]
  simp only [if_neg (Nat.not_lt.mpr h)]

/-- A step past the limit is refused. -/
theorem countStep_of_lt (bounded : f.engine.config.maxStepTransitions = some limit)
    (h : limit < s.transitions + 1) :
    f.countStep s = (.error (.failed ⟨.tooManySteps limit, none⟩),
      { s with transitions := s.transitions + 1 }) := by
  rw [countStep_apply, bounded]
  simp only [if_pos h]

/-- The runs of flows that a step may call are accounted for. -/
def Accounted (limit : Nat) (caller : Caller) (inner : Beginnings) : Prop :=
  ∀ flow inputs s, s.transitions ≤ limit →
    Run.Accounts limit s (caller flow inputs s) (inner flow inputs s)

/-- A visit begins the steps of the flow that it calls. -/
theorem accounts_visit (called : Accounted limit caller inner) (hs : s.transitions ≤ limit) :
    Run.Accounts limit s (f.visit caller step c s)
      (match f.approach step c s with
        | (.ok (.calling _ sub), u) => inner sub.flow sub.inputs u
        | _ => []) := by
  have alone : Run.WithinStep (f.approach step c) := closed_approach Run.closed_withinStep
  rw [visit_eq]
  cases reached : f.approach step c s with
  | mk outcome u =>
    have counts : u.transitions ≤ limit := by
      rw [alone.counts reached]
      exact hs
    cases outcome with
    | error stop => exact (alone.accounts hs).bind_of_error reached
    | ok approach =>
      refine (alone.accounts hs).bind_of_ok reached ?_
      cases approach with
      | ended d visit => exact (Run.closed_withinStep.pure _).accounts counts
      | calling call sub =>
        exact (called sub.flow sub.inputs u counts).inSubFlow.bind_withinStep fun _ =>
          closed_finish Run.closed_withinStep call sub _

/-- A step is one more than the steps before it, and then there are those of its visit. -/
theorem accounts_advance (called : Accounted limit caller inner)
    (bounded : f.engine.config.maxStepTransitions = some limit) (hs : s.transitions ≤ limit) :
    Run.Accounts limit s (f.advance caller step index c s) (f.begunIn inner step c s) := by
  rw [advance_visit]
  by_cases room : s.transitions + 1 ≤ limit
  · have counted := countStep_of_le bounded room
    have visited : Run.Accounts limit { s with transitions := s.transitions + 1 }
        ((f.visit caller step c >>= fun v => f.lead step index v.1 v.2)
          { s with transitions := s.transitions + 1 }) _ :=
      (accounts_visit called room).bind_withinStep fun v => withinStep_lead v.1 v.2
    rw [Run.bind_of_ok counted]
    unfold begunIn
    rw [counted]
    exact visited.cons rfl rfl
  · have refused := countStep_of_lt bounded (Nat.lt_of_not_le room)
    rw [Run.bind_of_error refused]
    unfold begunIn
    rw [refused]
    refine ⟨hs, rfl, nofun, ?_⟩
    intro stop t same
    cases same
    exact ⟨_, rfl⟩

/-- A step that succeeds is counted itself. -/
theorem begunIn_ne_nil {d : Context} {next : Nat} {t : Session}
    (h : f.advance caller step index c s = (.ok (d, next), t)) : f.begunIn inner step c s ≠ [] := by
  obtain ⟨_, m, counted, _⟩ := Run.bind_apply_eq_ok h
  unfold begunIn
  rw [counted]
  exact List.cons_ne_nil _ _

/-- With more fuel than there are steps left, the loop over steps ends before its fuel does. -/
theorem accounts_runSteps (called : Accounted limit caller inner)
    (bounded : f.engine.config.maxStepTransitions = some limit) {fuel : Nat}
    (hs : s.transitions ≤ limit) (enough : limit < s.transitions + fuel) :
    Run.Accounts limit s (f.runSteps caller fuel index c s)
      (f.begunFrom caller inner fuel index c s) := by
  induction fuel generalizing index c s with
  | zero => omega
  | succ fuel ih =>
    unfold begunFrom
    cases here : f.flow.steps[index]? with
    | none =>
      rw [runSteps, here]
      exact (Run.closed_withinStep.pure c).accounts hs
    | some step =>
      have first : Run.Accounts limit s (f.advance caller step index c s)
          (f.begunIn inner step c s) := accounts_advance called bounded hs
      rw [runSteps_succ here]
      cases ran : f.advance caller step index c s with
      | mk outcome t =>
        cases outcome with
        | error stop =>
          simp only [ran, List.append_nil]
          exact first.atStep.bind_of_error (Run.atStep_of_error ran)
        | ok next =>
          -- the step itself is counted, so what is left of the fuel is enough for the rest
          have counted : t.transitions = s.transitions + (f.begunIn inner step c s).length :=
            first.counted next t ran
          have one : 0 < (f.begunIn inner step c s).length :=
            List.length_pos_of_ne_nil (begunIn_ne_nil ran)
          have room : t.transitions ≤ limit := counted ▸ first.bound
          have left : limit < t.transitions + fuel := by omega
          simp only [ran]
          exact first.atStep.bind_of_ok (Run.atStep_of_ok ran) (ih room left)

end Frame

namespace Engine

open Tabletop.Frame

variable {e : Engine} {limit : Nat}

/-- A run of a flow begins no more steps than are left. -/
theorem accounts_runFlow (bounded : e.config.maxStepTransitions = some limit)
    (levels depth : Nat) : Accounted limit (e.runFlow levels depth) (e.begun levels depth) := by
  induction levels generalizing depth with
  | zero => exact fun id _ s hs => (Run.closed_withinStep.fail _).accounts hs
  | succ levels ih =>
    intro id inputs s hs
    unfold begun
    cases found : e.catalog.flow? id with
    | none =>
      rw [runFlow, found]
      exact (Run.closed_withinStep.fail _).accounts hs
    | some flow =>
      have start : Run.WithinStep (Run.traced (Frame.start ⟨e, flow, depth⟩ inputs)) :=
        Run.withinStep_traced _
      rw [runFlow, found]
      dsimp only
      cases begun : Run.traced (Frame.start ⟨e, flow, depth⟩ inputs) s with
      | mk outcome t =>
        have counts : t.transitions ≤ limit := by
          rw [start.counts begun]
          exact hs
        cases outcome with
        | error stop => exact (start.accounts hs).bind_of_error begun
        | ok c =>
          have enough : limit < t.transitions + Frame.stepFuel ⟨e, flow, depth⟩ := by
            unfold Frame.stepFuel
            simp only [bounded]
            omega
          refine (start.accounts hs).bind_of_ok begun ?_
          exact (accounts_runSteps (ih (depth + 1)) bounded counts enough).bind_withinStep
            fun d => Run.closed_withinStep.lift _

end Engine

/-! ## §4 Their depths -/

namespace Frame

variable {f : Frame} {caller : Caller} {inner : Beginnings} {step : Step} {c : Context}
  {s : Session} {x : Begun}

theorem depth_of_mem_begunIn (h : x ∈ f.begunIn inner step c s) :
    x.depth = f.depth ∨ ∃ flow inputs u, x ∈ inner flow inputs u := by
  unfold begunIn at h
  split at h
  · exact absurd h List.not_mem_nil
  · rcases List.mem_cons.mp h with rfl | h
    · exact Or.inl rfl
    · split at h
      · exact Or.inr ⟨_, _, _, h⟩
      · exact absurd h List.not_mem_nil

theorem depth_of_mem_begunFrom {fuel index : Nat}
    (h : x ∈ f.begunFrom caller inner fuel index c s) :
    x.depth = f.depth ∨ ∃ flow inputs u, x ∈ inner flow inputs u := by
  induction fuel generalizing index c s with
  | zero => exact absurd h List.not_mem_nil
  | succ fuel ih =>
    unfold begunFrom at h
    split at h
    · exact absurd h List.not_mem_nil
    · rcases List.mem_append.mp h with h | h
      · exact depth_of_mem_begunIn h
      · split at h
        · exact ih h
        · exact absurd h List.not_mem_nil

end Frame

namespace Engine

open Tabletop.Frame

/-- Steps are begun at the levels that are allowed only. -/
theorem depth_of_mem_begun {e : Engine} {levels depth : Nat} {id : String} {inputs : Fields}
    {s : Session} {x : Begun} (h : x ∈ e.begun levels depth id inputs s) :
    x.depth < depth + levels := by
  induction levels generalizing depth id inputs s with
  | zero => exact absurd h List.not_mem_nil
  | succ levels ih =>
    unfold begun at h
    split at h
    · exact absurd h List.not_mem_nil
    · dsimp only at h
      split at h
      · rcases depth_of_mem_begunFrom h with same | ⟨flow, inputs, u, within⟩
        · have here : x.depth = depth := same
          omega
        · have deeper := ih within
          omega
      · exact absurd h List.not_mem_nil

/-! ## §5 The bounds -/

/-- The bounds hold. With a bound on steps a run comes to an end, whatever its flows call and
wherever their steps lead: it returns outputs or a failure. The steps that it begins, over all its
flows, are numbered one after the other, up to the bound at most, and a run that succeeds has counted
no others; each is at a depth that is allowed. If a flow is too deep, or a step is one too many, the
run fails with an error of the kind that says so, wherever that was. -/
theorem bounds_hold (e : Engine) {limit : Nat} (bounded : e.config.maxStepTransitions = some limit)
    (host : Host) (id : String) (inputs : Fields) :
    let levels := e.config.maxFlowDepth + 1
    let steps := e.begun levels 0 id inputs { host }
    ((∃ outputs, (e.execute host id inputs).result = .ok outputs) ∨
      ∃ error, (e.execute host id inputs).result = .error (.failed error)) ∧
    steps.length ≤ limit ∧ steps.map (·.number) = List.range' 1 steps.length ∧
    (∀ outputs t, e.runFlow levels 0 id inputs { host } = (.ok outputs, t) →
      t.transitions = steps.length) ∧
    (∀ x ∈ steps, x.depth ≤ e.config.maxFlowDepth) ∧
    ∀ places failure, e.FailsAt levels 0 id inputs { host } places failure →
      (failure = .tooManySteps limit ∨ ∃ flow, failure = .tooDeep flow e.config.maxFlowDepth) →
        ∃ error, (e.execute host id inputs).result = .error (.failed error)
          ∧ error.failure.kind = .recursionLimit := by
  intro levels steps
  have accounts : Run.Accounts limit { host } (e.runFlow levels 0 id inputs { host }) steps :=
    accounts_runFlow bounded levels 0 id inputs { host } (Nat.zero_le limit)
  have returns : ∀ stop, (e.execute host id inputs).result = .error stop →
      ∃ error, stop = .failed error :=
    fun stop stopped => accounts.stops stop _ (Prod.ext stopped rfl)
  refine ⟨?_, ?_, accounts.numbers, ?_, ?_, ?_⟩
  · cases result : (e.execute host id inputs).result with
    | ok outputs => exact Or.inl ⟨outputs, rfl⟩
    | error stop =>
      obtain ⟨error, rfl⟩ := returns stop result
      exact Or.inr ⟨error, rfl⟩
  · have bound := accounts.bound
    rwa [Nat.zero_add] at bound
  · intro outputs t ran
    have counted := accounts.counted outputs t ran
    rwa [Nat.zero_add] at counted
  · intro x hx
    have depth := depth_of_mem_begun hx
    omega
  · intro places failure origin guard
    rcases outcome_of_failsAt origin with out | ⟨error, wrapped, failed, tells⟩
    · obtain ⟨error, same⟩ := returns .outOfFuel out
      cases same
    · refine ⟨error, failed, ?_⟩
      rw [tells.kinds error List.mem_cons_self]
      rcases guard with rfl | ⟨flow, rfl⟩
      · rfl
      · rfl

/-- A flow that calls itself, in runs of one step. -/
def burrow : Engine where
  catalog := { flows := [("burrow", { id := "burrow", steps := [{
    id := "dig", typeName := "flow_call", settings := [("flow_id", .text "burrow")] }] })] }
  config := { maxStepTransitions := some 1 }

/-- The flow in its frame. -/
def burrowAt (depth : Nat) : Frame where
  engine := burrow
  flow := { id := "burrow", steps := [{
    id := "dig", typeName := "flow_call", settings := [("flow_id", .text "burrow")] }] }
  depth := depth

/-- The call that a visit has come to. -/
def callOf : Approach → Option SubCall
  | .calling _ sub => some sub
  | .ended _ _ => none

/-- The second step is one too many, and the run says so. -/
theorem burrow_stops :
    let steps := burrow.begun (burrow.config.maxFlowDepth + 1) 0 "burrow" [] { host := {} }
    steps.length = 1 ∧ (∀ x ∈ steps, x.depth ≤ burrow.config.maxFlowDepth)
      ∧ burrow.FailsAt (burrow.config.maxFlowDepth + 1) 0 "burrow" [] { host := {} }
          [some "dig", some "dig"] (.tooManySteps 1)
      ∧ ∃ error, (burrow.execute {} "burrow" []).result = .error (.failed error)
          ∧ error.failure.kind = .recursionLimit := by
  intro steps
  let dig : Step := {
    id := "dig", typeName := "flow_call", settings := [("flow_id", .text "burrow")] }
  let dive : Run (Option SubCall × Context) := do
    let c ← Run.traced ((burrowAt 0).start [])
    (burrowAt 0).countStep
    let approach ← (burrowAt 0).approach dig c
    let d ← Run.traced ((burrowAt 1).start ((callOf approach).elim [] SubCall.inputs))
    pure (callOf approach, d)
  have dived : ((dive { host := {} }).1.toOption.any
      fun x => x.1.any fun sub => sub.flow == "burrow") = true := by decide +kernel
  obtain ⟨⟨sub?, d⟩, t, ran, called⟩ := Run.exists_of_test dived
  obtain ⟨c, s, begun, ran⟩ := Run.bind_apply_eq_ok ran
  obtain ⟨_, m, counted, ran⟩ := Run.bind_apply_eq_ok ran
  obtain ⟨approach, u, reached, ran⟩ := Run.bind_apply_eq_ok ran
  obtain ⟨d, v, begun', ran⟩ := Run.bind_apply_eq_ok ran
  cases ran
  cases approach with
  | ended c visit => cases called
  | calling call sub =>
    have deep : 1 < t.transitions + 1 := by
      have last := (Run.withinStep_traced _).counts begun'
      have before := (closed_approach Run.closed_withinStep).counts reached
      have first := congrArg (fun r => r.2.transitions) ((countStep_apply _ s).symm.trans counted)
      dsimp only at first
      omega
    have found : burrow.catalog.flow? sub.flow = some (burrowAt 1).flow := by
      rw [eq_of_beq called]
      rfl
    have refused := countStep_of_lt (f := burrowAt 1) (s := t) rfl deep
    have within : burrow.FailsAt burrow.config.maxFlowDepth 1 sub.flow sub.inputs u [some "dig"]
        (.tooManySteps 1) :=
      .step found (.start begun') rfl (.counting refused)
    have known : burrow.catalog.flow? "burrow" = some (burrowAt 0).flow := rfl
    have origin : burrow.FailsAt (burrow.config.maxFlowDepth + 1) 0 "burrow" [] { host := {} }
        [some "dig", some "dig"] (.tooManySteps 1) :=
      .called known (.start begun) rfl ⟨m, counted, reached⟩ within
    obtain ⟨_, few, _, _, depths, stopped⟩ := bounds_hold burrow rfl {} "burrow" []
    have one : steps.length = 1 := by decide +kernel
    exact ⟨one, depths, origin, stopped _ _ origin (Or.inl rfl)⟩

end Engine

end Tabletop
