/-
Tabletop.Proofs.Run.Cursor — which step comes next.

A run starts with the first step of its flow. After each visit it goes on
with the step that the visit's override names, else with the one that the
step names, else with the next one. The override is what the player has
chosen, unless something else has written where it is kept.

  §1 Visits that succeed
  §2 Overrides of visits
  §3 The step that follows
  §4 Turns
-/
import Tabletop.Proofs.Run.Attempts
import Tabletop.Proofs.Run.Override

namespace Tabletop

open Traced

/-! ## §1 Visits that succeed -/

/-- Attempts that succeed end with one that does. -/
theorem Tried.getLast?_of_ok {task : StepTask} {body : Run Context} {limit : Nat} {s u : Session}
    {made : List Attempt} {d : Context} (h : Tried task body limit s made (.ok d, u)) :
    ∃ t, made.getLast? = some ⟨task, t, .ok d, u⟩ ∧ body t = (.ok d, u) := by
  generalize same : ((.ok d, u) : Except Stop Context × Session) = result at h
  induction h with
  | last ran =>
    cases same
    exact ⟨_, rfl, ran⟩
  | again ran repeatable byHost rest ih =>
    obtain ⟨t, last, ended⟩ := ih same
    refine ⟨t, ?_, ended⟩
    rw [List.getLast?_cons_of_ne_nil rest.ne_nil, last]

namespace Frame

variable {f : Frame} {caller : Caller} {step : Step} {c d e : Context} {s t u : Session}
  {kind : StepKind}

/-- The step, visited in the context, is not skipped; its data is cleared. -/
def Admits (step : Step) (c emptied : Context) : Prop :=
  (c.put step.place (.mapping [])).outcome = .ok emptied
    ∧ (meetsCondition step emptied).outcome = .ok true

theorem admits_of_admitted {emptied : Context}
    (h : (admission step c).outcome = .ok (.admitted kind emptied)) :
    Admits step c emptied ∧ step.kind = .ok kind := by
  obtain ⟨m, cleared, h⟩ := outcome_bind_eq_ok.mp h
  obtain ⟨holds, tested, h⟩ := outcome_bind_eq_ok.mp h
  cases holds with
  | false => cases h
  | true =>
    obtain ⟨read, settings, h⟩ := outcome_bind_eq_ok.mp h
    cases h
    exact ⟨⟨cleared, tested⟩, kind_of_kindOf settings⟩

/-- A visit that is skipped does not come to a body. -/
theorem not_admits_of_skipped {emptied : Context}
    (h : (admission step c).outcome = .ok (.skipped d)) : ¬ Admits step c emptied := by
  rintro ⟨cleared, tested⟩
  obtain ⟨m, cleared', h⟩ := outcome_bind_eq_ok.mp h
  rw [cleared] at cleared'
  cases cleared'
  obtain ⟨holds, tested', h⟩ := outcome_bind_eq_ok.mp h
  rw [tested] at tested'
  cases tested'
  obtain ⟨read, _, h⟩ := outcome_bind_eq_ok.mp h
  cases h

/-- The step, visited in the context and the session, comes to its body on the context `b`, and its
last attempt, begun in the session `t`, leaves `d`. -/
structure Completes (f : Frame) (caller : Caller) (step : Step) (c : Context) (s : Session)
    (kind : StepKind) (b : Context) (t : Session) (d : Context) (u : Session) : Prop where
  comes : f.ComesToBody step c b
  read : step.kind = .ok kind
  last : (f.attemptsAt caller step c s).getLast? = some ⟨f.taskOf step, t, .ok d, u⟩

theorem ComesToBody.unique {b b' : Context} (h : f.ComesToBody step c b)
    (k : f.ComesToBody step c b') : b = b' := by
  obtain ⟨emptied, cleared, _, prepared⟩ := h
  obtain ⟨emptied', cleared', _, prepared'⟩ := k
  rw [cleared] at cleared'
  cases cleared'
  rw [prepared] at prepared'
  exact Except.ok.inj prepared'

/-- A visit that succeeds has been skipped, or its last attempt has. -/
theorem skipped_or_completes {visit : Visit}
    (visited : f.visit caller step c s = (.ok (d, visit), u)) :
    (visit.override = none ∧ ∀ emptied, ¬ Admits step c emptied) ∨
      ∃ kind b t e, f.Completes caller step c s kind b t e u
        ∧ f.stepBody caller step kind b t = (.ok e, u)
        ∧ visit.override = (e.lookup step.overridePath).bind Value.asText? := by
  have goes := f.visited caller step c s
  rw [visited] at goes
  generalize made : f.attemptsAt caller step c s = attempts at goes
  generalize same : ((.ok (d, visit), u) : Except Stop (Context × Visit) × Session) = result at goes
  cases goes with
  | stopped stopped => cases same
  | failed admitted before => cases same
  | skipped skipped =>
    cases same
    exact Or.inl ⟨rfl, fun emptied => not_admits_of_skipped skipped⟩
  | tried admitted before tried =>
    rename_i kind cleared b outcome t
    obtain ⟨⟨emptied, holds⟩, read⟩ := admits_of_admitted admitted
    cases outcome with
    | error stop => cases same
    | ok e =>
      cases same
      obtain ⟨t, last, ran⟩ := tried.getLast?_of_ok
      exact Or.inr ⟨kind, b, t, e, ⟨⟨cleared, emptied, holds, before⟩, read, made ▸ last⟩, ran, rfl⟩

/-! ## §2 Overrides of visits -/

/-- The step, visited in the context and the session, lets the player choose one option, and the
one that is chosen goes on with the step of the id. -/
def ChoosesNext (f : Frame) (caller : Caller) (step : Step) (c : Context) (s : Session)
    (id : String) : Prop :=
  ∃ kind b t d u, f.Completes caller step c s kind b t d u ∧ f.Directs b t kind id

/-- In the visit, something other than the choice of a player meets the override of the step. -/
inductive Diverted (f : Frame) (caller : Caller) (step : Step) (c : Context) (s : Session) : Prop
  /-- The id leaves a bracket open, and an older override has not been cleared with the data. -/
  | stale {emptied : Context} {v : Value} (admits : Admits step c emptied)
      (unclosed : ¬ step.Closes) (left : emptied.lookup step.overridePath = some v) :
      Diverted f caller step c s
  /-- An action before the body writes there. -/
  | before {emptied e : Context} {a : Action} (admits : Admits step c emptied)
      (acts : f.ActsOn step.preActions emptied e a)
      (meets : (Deed.act a).Meets f e step.overridePath) : Diverted f caller step c s
  /-- Something that is done in the body writes there. -/
  | during {kind : StepKind} {b d e : Context} {t u : Session} {deed : Deed}
      (completes : f.Completes caller step c s kind b t d u)
      (does : f.Does caller step b t kind e deed) (meets : deed.Meets f e step.overridePath) :
      Diverted f caller step c s

/-- The data of a step is cleared with its override. -/
theorem lookup_emptied (closes : step.Closes) (shown : c.Unhidden)
    (h : (c.put step.place (.mapping [])).outcome = .ok d) :
    d.lookup step.overridePath = none := by
  have written := Context.outcome_writeTraced_eq_ok.mp h
  obtain ⟨entry, rest, path⟩ := step.overridePath_eq
  have ends : step.overridePath = Path.split step.place ++ ["next_step_override"] := closes
  rw [ends] at path ⊢
  cases place : Path.split step.place with
  | nil =>
    rw [place] at written
    cases written
  | cons space more =>
    rw [place] at path written
    obtain ⟨rfl, path⟩ := List.cons.inj path
    cases more with
    | nil =>
      -- The name of a namespace is not written alone.
      rcases Context.write_cases written with ⟨name, same, free, _⟩ | ⟨_, _, longer, _⟩
          | ⟨_, _, _, _, _, longer, _⟩
      · cases same
        exact absurd (by decide) (Context.isReserved_eq_false_iff.mp free).1
      · cases longer
      · cases longer
    | cons entry more =>
      exact Context.lookup_write_self written (shown "steps" (by decide)) ["next_step_override"]

/-- Where a body begins, namespaces are shown. -/
theorem ComesToBody.unhidden {b : Context} (h : f.ComesToBody step c b) (shown : c.Unhidden) :
    b.Unhidden := by
  obtain ⟨emptied, cleared, _, prepared⟩ := h
  have edits : c.Edits emptied := .set .refl (Context.outcome_writeTraced_eq_ok.mp cleared)
  exact (goes_runActions prepared).unhidden (edits.unhidden shown)

/-- Where a body begins that is not diverted, there is no override. -/
theorem ComesToBody.lookup {b : Context} (h : f.ComesToBody step c b) (shown : c.Unhidden)
    (straight : ¬ f.Diverted caller step c s) : b.lookup step.overridePath = none := by
  obtain ⟨emptied, cleared, holds, prepared⟩ := h
  have admits : Admits step c emptied := ⟨cleared, holds⟩
  have before : SameOverride step emptied b :=
    sameOverride_runActions prepared fun e a acts meets => straight (.before admits acts meets)
  refine Eq.trans before ?_
  by_cases closes : step.Closes
  · exact lookup_emptied closes shown cleared
  · by_contra there
    obtain ⟨v, left⟩ := Option.ne_none_iff_exists'.mp there
    exact straight (.stale admits closes left)

/-- The choice of a visit is that of its last attempt. -/
theorem Completes.choosesNext_iff {b : Context} (h : f.Completes caller step c s kind b t d u)
    (id : String) : f.ChoosesNext caller step c s id ↔ f.Directs b t kind id := by
  refine ⟨?_, fun directs => ⟨kind, b, t, d, u, h, directs⟩⟩
  rintro ⟨kind', b', t', d', u', completes, directs⟩
  obtain rfl := h.comes.unique completes.comes
  have kinds := h.read.symm.trans completes.read
  have lasts := h.last.symm.trans completes.last
  cases kinds
  cases lasts
  exact directs

/-- The override of a visit is what the player has chosen to go on with, unless it is diverted. -/
theorem override_of_visit {visit : Visit} (shown : c.Unhidden)
    (visited : f.visit caller step c s = (.ok (d, visit), u))
    (straight : ¬ f.Diverted caller step c s) (id : String) :
    visit.override = some id ↔ f.ChoosesNext caller step c s id := by
  rcases skipped_or_completes visited with ⟨none, skipped⟩ | ⟨kind, b, t, e, completes, ran, noted⟩
  · rw [none]
    refine ⟨nofun, ?_⟩
    rintro ⟨_, _, _, _, _, completes, _⟩
    obtain ⟨emptied, cleared, holds, _⟩ := completes.comes
    exact absurd ⟨cleared, holds⟩ (skipped emptied)
  · have leaves : f.Leaves step b t kind e :=
      leaves_stepBody (completes.comes.unhidden shown) ran fun e deed does meets =>
        straight (.during completes does meets)
    rw [completes.choosesNext_iff, noted]
    rcases leaves with ⟨other, directs, written⟩ | ⟨free, same⟩
    · rw [written]
      refine ⟨fun named => ?_, fun directs' => ?_⟩
      · cases named
        exact directs
      · rw [directs'.unique directs]
        rfl
    · have nothing : e.lookup step.overridePath = none :=
        Eq.trans same (completes.comes.lookup shown straight)
      rw [nothing]
      exact ⟨nofun, fun directs => absurd directs (free id)⟩

/-- A step that has no actions and stores no outputs of flows is not diverted if its id leaves no
bracket open. -/
theorem not_diverted (closes : step.Closes) (idle : step.allActions = [])
    (keeps : ∀ call, step.kind = .ok (.flowCall call) → call.outputs = []) :
    ¬ f.Diverted caller step c s := by
  have none_of : ∀ a, a ∉ step.allActions := fun a ha => by simp [idle] at ha
  intro diverted
  cases diverted with
  | stale admits unclosed left => exact unclosed closes
  | before admits acts meets =>
    exact none_of _ (List.mem_append_left _ (List.mem_append_left _ acts.mem))
  | during completes does meets =>
    rename_i kind b d e t u deed
    have own : ∀ a, a ∉ step.actions := fun a ha =>
      none_of a (List.mem_append_left _ (List.mem_append_right _ ha))
    have authored := does.isOf
    obtain ⟨p, writes, _⟩ := meets
    cases deed with
    | act a =>
      rcases authored with there | there
      · exact own a there
      · refine none_of a (List.mem_append_right _ ?_)
        rw [completes.read]
        exact there
    | batch actions =>
      obtain ⟨a, ha, _⟩ := writes
      exact own a (authored ▸ ha)
    | keep path =>
      obtain ⟨call, rfl, stored⟩ := authored
      rw [keeps call completes.read] at stored
      cases stored

end Frame

/-! ## §3 The step that follows -/

/-- The position that follows a step: that of the first step with the id that is chosen, else of the
first one with the id that the step names, else the next position. -/
def Flow.following? (flow : Flow) (step : Step) (chosen : Option String) (index : Nat) :
    Option Nat :=
  match chosen <|> step.nextStep with
  | some id => flow.stepIndex? id
  | none => some (index + 1)

namespace Frame

variable {f : Frame} {caller : Caller} {inputs : Fields} {step : Step} {visit : Visit}
  {index next : Nat} {c d : Context} {s t u : Session}

/-- The next position is the one that follows; if there is none, it is not found. -/
theorem nextIndex_following (f : Frame) (step : Step) (visit : Visit) (index : Nat) :
    (∃ next, f.flow.following? step visit.override index = some next
        ∧ f.nextIndex step visit index = .ok next) ∨
      f.flow.following? step visit.override index = none
        ∧ ∃ failure, f.nextIndex step visit index = .error failure ∧ failure.kind = .notFound := by
  unfold Flow.following? nextIndex
  rcases visit with ⟨_, override⟩
  cases override with
  | some target =>
    cases found : f.flow.stepIndex? target with
    | some i => exact Or.inl ⟨i, found, by simp only [found]⟩
    | none => exact Or.inr ⟨found, .unknownChoiceTarget target, by simp only [found], rfl⟩
  | none =>
    cases step.nextStep with
    | none => exact Or.inl ⟨index + 1, rfl, rfl⟩
    | some target =>
      cases found : f.flow.stepIndex? target with
      | some i => exact Or.inl ⟨i, found, by simp only [found]⟩
      | none => exact Or.inr ⟨found, .unknownTarget target, by simp only [found], rfl⟩

theorem nextIndex_eq_ok_iff :
    f.nextIndex step visit index = .ok next ↔
      f.flow.following? step visit.override index = some next := by
  rcases f.nextIndex_following step visit index with ⟨i, follows, moves⟩ | ⟨lost, _, fails, _⟩
  · rw [follows, moves, Except.ok.injEq, Option.some.injEq]
  · rw [lost, fails]
    exact ⟨nofun, nofun⟩

theorem exists_of_following_none (lost : f.flow.following? step visit.override index = none) :
    ∃ failure, f.nextIndex step visit index = .error failure ∧ failure.kind = .notFound := by
  rcases f.nextIndex_following step visit index with ⟨i, follows, _⟩ | ⟨_, fails⟩
  · rw [lost] at follows
    cases follows
  · exact fails

end Frame

/-! ## §4 Turns -/

/-- One turn of the loop over the steps of a flow. -/
structure Turn where
  index : Nat
  step : Step
  /-- What the step is visited in, and what the visit leaves. -/
  before : Context
  after : Context
  visit : Visit
  /-- The sessions in which the visit begins and ends. -/
  begun : Session
  ended : Session

namespace Frame

variable {f : Frame} {caller : Caller} {inputs : Fields} {step : Step} {visit : Visit}
  {index next : Nat} {c d : Context} {s t u : Session} {x : Turn}

/-- A run of the flow that begins in the session `s` comes to the turn, and the visit succeeds. -/
structure Takes (f : Frame) (caller : Caller) (inputs : Fields) (s : Session) (x : Turn) :
    Prop where
  here : f.flow.steps[x.index]? = some x.step
  counted : ∃ t, f.AtBoundary caller inputs s t x.index x.before
    ∧ f.countStep t = (.ok (), x.begun)
  visited : f.visit caller x.step x.before x.begun = (.ok (x.after, x.visit), x.ended)

/-- A turn ends as the position after it is found. -/
theorem Takes.advance (h : f.Takes caller inputs s x) :
    ∃ t u, f.AtBoundary caller inputs s t x.index x.before
      ∧ f.advance caller x.step x.index x.before t
        = (((f.nextIndex x.step x.visit x.index).map fun next => (x.after, next)).mapError
            fun failure => .failed ⟨failure, none⟩, u) := by
  obtain ⟨t, before, counted⟩ := h.counted
  obtain ⟨u, led⟩ := f.lead_apply x.step x.index x.after x.visit x.ended
  refine ⟨t, u, before, ?_⟩
  rw [advance_visit, Run.bind_of_ok counted]
  exact (Run.bind_of_ok h.visited).trans led

/-- A step that succeeds is a turn. -/
theorem exists_turn (before : f.AtBoundary caller inputs s t index c)
    (here : f.flow.steps[index]? = some step)
    (done : f.advance caller step index c t = (.ok (d, next), u)) :
    ∃ x, f.Takes caller inputs s x ∧ x.after = d
      ∧ f.flow.following? x.step x.visit.override x.index = some next := by
  rw [advance_visit] at done
  obtain ⟨_, m, counted, done⟩ := Run.bind_apply_eq_ok done
  obtain ⟨⟨e, visit⟩, v, visited, done⟩ := Run.bind_apply_eq_ok done
  obtain ⟨w, led⟩ := f.lead_apply step index e visit v
  have found := led.symm.trans done
  cases moves : f.nextIndex step visit index with
  | error failure =>
    rw [moves] at found
    cases found
  | ok i =>
    rw [moves] at found
    cases found
    exact ⟨⟨index, step, c, d, visit, m, v⟩, ⟨here, ⟨t, before, counted⟩, visited⟩, rfl,
      nextIndex_eq_ok_iff.mp moves⟩

/-- A run of a frame goes on from each of its boundaries, unless its fuel is used up before it is
there. -/
theorem AtBoundary.frame_goes_on (h : f.AtBoundary caller inputs s t index c) :
    (∃ left, Engine.runFrame f caller inputs s
        = (f.runSteps caller left index c >>= fun d => liftM (ofExcept (f.outputs d))) t) ∨
      (Engine.runFrame f caller inputs s).1 = .error .outOfFuel := by
  have run : Engine.runFrame f caller inputs
      = ((liftM (f.start inputs) : Run Context) >>= f.runSteps caller f.stepFuel 0)
        >>= fun d => liftM (ofExcept (f.outputs d)) := by
    rw [bind_assoc]
    rfl
  rw [run]
  rcases h.goes_on f.stepFuel with ⟨left, same⟩ | out
  · refine Or.inl ⟨left, ?_⟩
    rw [Run.bind_apply, same, ← Run.bind_apply]
  · exact Or.inr (Run.bind_fst_of_error out)

/-- Past the last step a run ends with its outputs. -/
theorem AtBoundary.ends (h : f.AtBoundary caller inputs s t index c)
    (past : f.flow.steps[index]? = none) :
    (Engine.runFrame f caller inputs s).1 = .error .outOfFuel ∨
      (Engine.runFrame f caller inputs s).1
        = (f.outputs c).mapError fun failure => .failed ⟨failure, none⟩ := by
  rcases h.frame_goes_on with ⟨left, same⟩ | out
  · rw [same]
    cases left with
    | zero => exact Or.inl rfl
    | succ left =>
      have still : f.runSteps caller (left + 1) index c t = (.ok c, t) := by
        rw [runSteps, past]
        rfl
      rw [Run.bind_of_ok still]
      exact Or.inr (congrArg Prod.fst (Run.traced_apply _ t))
  · exact Or.inl out

/-- A turn leads to the position that follows. -/
theorem Takes.goes_on (h : f.Takes caller inputs s x)
    (follows : f.flow.following? x.step x.visit.override x.index = some next) :
    ∃ t, f.AtBoundary caller inputs s t next x.after := by
  obtain ⟨t, u, before, done⟩ := h.advance
  rw [nextIndex_eq_ok_iff.mpr follows] at done
  exact ⟨u, before.step h.here (Run.atStep_of_ok done)⟩

/-- A turn that no step follows ends the run with that failure. -/
theorem Takes.fails {failure : Failure} (h : f.Takes caller inputs s x)
    (lost : f.nextIndex x.step x.visit x.index = .error failure) :
    (Engine.runFrame f caller inputs s).1 = .error .outOfFuel ∨
      (Engine.runFrame f caller inputs s).1 = .error (.failed ⟨failure, some x.step.id⟩) := by
  obtain ⟨t, u, before, stops⟩ := h.advance
  rw [lost] at stops
  rcases before.frame_goes_on with ⟨left, same⟩ | out
  · rw [same]
    cases left with
    | zero => exact Or.inl rfl
    | succ left =>
      rw [runSteps_succ h.here]
      exact Or.inr (Run.bind_fst_of_error
        (Run.bind_fst_of_error (congrArg Prod.fst (Run.atStep_of_error stops))))
  · exact Or.inl out

/-- The cursor of a run.
* A run is at its first step, or at the position that follows a turn that it has taken.
* What a turn goes on with is what the player has chosen in it, unless the turn is diverted; and the
  run comes to the position that follows, or fails at the step because nothing of the id is there.
* Past the last step the run ends with its outputs, and it succeeds only there. -/
theorem cursor_follows (f : Frame) (caller : Caller) (inputs : Fields) (s : Session) :
    (∀ t index c, f.AtBoundary caller inputs s t index c →
      index = 0 ∧ (f.start inputs).outcome = .ok c ∨
        ∃ x, f.Takes caller inputs s x ∧ x.after = c
          ∧ f.flow.following? x.step x.visit.override x.index = some index) ∧
    (∀ x, f.Takes caller inputs s x →
      (¬ f.Diverted caller x.step x.before x.begun → ∀ id,
        x.visit.override = some id ↔ f.ChoosesNext caller x.step x.before x.begun id) ∧
      (∀ next, f.flow.following? x.step x.visit.override x.index = some next →
        ∃ t, f.AtBoundary caller inputs s t next x.after) ∧
      (f.flow.following? x.step x.visit.override x.index = none →
        ∃ failure, failure.kind = .notFound ∧
          ((Engine.runFrame f caller inputs s).1 = .error .outOfFuel ∨
            (Engine.runFrame f caller inputs s).1
              = .error (.failed ⟨failure, some x.step.id⟩)))) ∧
    (∀ t last c, f.AtBoundary caller inputs s t last c → f.flow.steps[last]? = none →
      (Engine.runFrame f caller inputs s).1 = .error .outOfFuel ∨
        (Engine.runFrame f caller inputs s).1
          = (f.outputs c).mapError fun failure => .failed ⟨failure, none⟩) ∧
    (∀ outputs, (Engine.runFrame f caller inputs s).1 = .ok outputs →
      ∃ t last c, f.AtBoundary caller inputs s t last c ∧ f.flow.steps[last]? = none
        ∧ f.outputs c = .ok outputs) := by
  refine ⟨?_, ?_, ?_, ?_⟩
  · intro t index c at_step
    cases at_step with
    | start begun => exact Or.inl ⟨rfl, Run.gives_traced ⟨_, _, begun⟩⟩
    | step before here done => exact Or.inr (exists_turn before here (Run.atStep_eq_ok done))
  · intro x takes
    refine ⟨?_, ?_, ?_⟩
    · intro straight id
      obtain ⟨t, before, _⟩ := takes.counted
      exact override_of_visit before.unhidden takes.visited straight id
    · intro next follows
      exact takes.goes_on follows
    · intro lost
      obtain ⟨failure, fails, kind⟩ := exists_of_following_none lost
      exact ⟨failure, kind, takes.fails fails⟩
  · intro t last c at_end past
    exact at_end.ends past
  · intro outputs succeeds
    obtain ⟨u, last, c, at_end, past, given⟩ := atBoundary_of_runFrame (Prod.ext succeeds rfl)
    exact ⟨u, last, c, at_end, past, given⟩

/-- The first turn of a run, on its own. -/
def firstTurn (f : Frame) (caller : Caller) (inputs : Fields) (step : Step) :
    Run (Context × Context × Visit) := do
  let c ← Run.traced (f.start inputs)
  f.countStep
  let visited ← f.visit caller step c
  pure (c, visited)

/-- A first turn whose outcome passes a test is taken. -/
theorem exists_firstTurn {test : Context × Context × Visit → Bool}
    (here : f.flow.steps[0]? = some step)
    (ends : (f.firstTurn caller inputs step s).1.toOption.any test = true) :
    ∃ x, f.Takes caller inputs s x ∧ x.index = 0 ∧ x.step = step
      ∧ test (x.before, x.after, x.visit) = true := by
  obtain ⟨y, t, ran, passes⟩ := Run.exists_of_test ends
  obtain ⟨c, s₁, begun, ran⟩ := Run.bind_apply_eq_ok ran
  obtain ⟨_, s₂, counted, ran⟩ := Run.bind_apply_eq_ok ran
  obtain ⟨⟨d, visit⟩, s₃, visited, ran⟩ := Run.bind_apply_eq_ok ran
  cases ran
  exact ⟨⟨0, step, c, d, visit, s₂, t⟩, ⟨here, ⟨s₁, .start begun, counted⟩, visited⟩, rfl, rfl,
    passes⟩

/-- A fork, where one way leads past the camp. -/
def forkStep : Step where
  id := "fork"
  typeName := "player_choice"
  settings := [("choices", .list [
    .mapping [("id", .text "left"), ("label", .text "Left"), ("next_step", .text "cave")],
    .mapping [("id", .text "right"), ("label", .text "Right")]])]

/-- The flow with the fork. -/
def hike : Flow where
  id := "hike"
  steps := [forkStep, { id := "camp", typeName := "completion" },
    { id := "cave", typeName := "completion" }]

/-- Who goes left at the fork comes to the cave. -/
theorem hike_leads_to_cave :
    let f : Frame := ⟨{ catalog := { flows := [("hike", hike)] } }, hike, 0⟩
    let s : Session := { host := { answers := some ⟨[.ok (.text "left")], .error "gone"⟩ } }
    ∃ x, f.Takes noCaller [] s x ∧ x.index = 0 ∧ x.step = forkStep
      ∧ ¬ f.Diverted noCaller x.step x.before x.begun
      ∧ f.ChoosesNext noCaller x.step x.before x.begun "cave"
      ∧ ∃ t, f.AtBoundary noCaller [] s t 2 x.after := by
  intro f s
  let test (y : Context × Context × Visit) : Bool := y.2.2.override == some "cave"
  have ends : (f.firstTurn noCaller [] forkStep s).1.toOption.any test = true := by
    decide +kernel
  obtain ⟨x, takes, first, here, passes⟩ := exists_firstTurn (by rfl) ends
  have left : x.visit.override = some "cave" := eq_of_beq passes
  have straight : ¬ f.Diverted noCaller x.step x.before x.begun := by
    rw [here]
    refine not_diverted (by decide) (by rfl) ?_
    intro call other_type
    cases other_type
  obtain ⟨_, turns, _⟩ := cursor_follows f noCaller [] s
  obtain ⟨chosen, goes_on, _⟩ := turns x takes
  refine ⟨x, takes, first, here, straight, (chosen straight "cave").mp left, goes_on 2 ?_⟩
  rw [left, here, first]
  rfl

/-- A step whose action writes its override. -/
def gateStep : Step where
  id := "gate"
  typeName := "completion"
  actions := [⟨"set_value",
    .mapping [("path", .text "steps.gate.next_step_override"), ("value", .text "keep")]⟩]

/-- The flow with the gate. -/
def patrol : Flow where
  id := "patrol"
  steps := [gateStep, { id := "yard", typeName := "completion" },
    { id := "keep", typeName := "completion" }]

/-- The engine of the flow. -/
def guard : Engine := { catalog := { flows := [("patrol", patrol)] } }

/-- The steps that are reported as done. -/
def doneSteps (events : List Event) : List String :=
  events.filterMap fun
    | .stepDone id _ => some id
    | _ => none

/-- At the gate nobody chooses, and the step names none to go on with. But the run goes on two steps
further, and the yard is never visited. -/
theorem patrol_skips_yard :
    let f : Frame := ⟨guard, patrol, 0⟩
    (∃ x, f.Takes noCaller [] { host := {} } x ∧ x.index = 0 ∧ x.step = gateStep
      ∧ (∀ id, ¬ f.ChoosesNext noCaller x.step x.before x.begun id)
      ∧ f.flow.following? x.step none x.index = some 1
      ∧ ∃ t, f.AtBoundary noCaller [] { host := {} } t 2 x.after) ∧
    doneSteps (guard.execute {} "patrol" []).events = ["gate", "keep"] := by
  intro f
  refine ⟨?_, by decide +kernel⟩
  let test (y : Context × Context × Visit) : Bool := y.2.2.override == some "keep"
  have ends : (f.firstTurn noCaller [] gateStep { host := {} }).1.toOption.any test = true := by
    decide +kernel
  obtain ⟨x, takes, first, here, passes⟩ := exists_firstTurn (by rfl) ends
  have written : x.visit.override = some "keep" := eq_of_beq passes
  refine ⟨x, takes, first, here, ?_, ?_, ?_⟩
  · rintro id ⟨kind, b, t, d, u, completes, directs⟩
    have read := completes.read
    rw [here] at read
    cases directs
    cases read
  · rw [here, first]
    rfl
  · refine takes.goes_on ?_
    rw [written, here, first]
    rfl

end Frame

end Tabletop
