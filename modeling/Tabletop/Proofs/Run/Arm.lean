/-
Tabletop.Proofs.Run.Arm — which arm of a branch is taken.

The conditions of a branch are tried in order on the context in which the
step is run. The first one that holds ends the trial: its actions run, and
after them the actions of the step, which nothing runs a second time. Where
no condition holds the last actions run. Of the arms that are not taken only
the conditions before the taken one count, and they only by not holding; so
what their actions are, and what comes behind the taken arm, does not matter
to the run, whether it succeeds or fails.

  §1 Chains of conditions
  §2 The arm that is taken
  §3 The task of a step that branches
-/
import Tabletop.Proofs.Run.Attempts
import Tabletop.Proofs.Run.Deed
import Tabletop.Proofs.Traversal

namespace Tabletop

open Traced

/-! ## §1 Chains of conditions -/

/-- Conditions, each with its actions, and the branch behind them. -/
def Branch.chain (arms : List (Option Value × List Action)) (rest : Branch) : Branch :=
  arms.foldr (fun arm rest => .test arm.1 arm.2 rest) rest

theorem Branch.chain_cons (condition : Option Value) (actions : List Action)
    (arms : List (Option Value × List Action)) (rest : Branch) :
    chain ((condition, actions) :: arms) rest = .test condition actions (chain arms rest) := rfl

namespace Frame

variable {f : Frame} {caller : Caller} {step : Step} {c d : Context} {s t : Session}
  {branch rest : Branch} {arms : List (Option Value × List Action)} {taken : List Action}

/-- Each of the conditions can be evaluated on the context and does not hold. -/
def NoneHolds (step : Step) (c : Context) (arms : List (Option Value × List Action)) : Prop :=
  ∀ arm ∈ arms, (branchHolds step c arm.1).outcome = .ok false

/-- The branch takes the actions at once: its first condition holds on the context, or it has no
condition. -/
inductive TakesNow (step : Step) (c : Context) : Branch → List Action → Prop
  | holds {condition : Option Value} {actions : List Action} {otherwise : Branch}
      (h : (branchHolds step c condition).outcome = .ok true) :
      TakesNow step c (.test condition actions otherwise) actions
  | last (actions : List Action) : TakesNow step c (.last actions) actions

theorem NoneHolds.congr {others : List (Option Value × List Action)} (h : NoneHolds step c arms)
    (same : others.map (·.1) = arms.map (·.1)) : NoneHolds step c others := by
  intro arm there
  have tried : arm.1 ∈ arms.map (·.1) := same ▸ List.mem_map_of_mem there
  obtain ⟨other, there', conditions⟩ := List.mem_map.mp tried
  rw [← conditions]
  exact h other there'

/-! ## §2 The arm that is taken -/

/-- A condition is evaluated without a report. -/
theorem events_branchHolds (step : Step) (c : Context) (condition : Option Value) :
    (branchHolds step c condition).events = [] := by
  unfold branchHolds
  split <;> rfl

theorem takenArm_test (condition : Option Value) (actions : List Action) (otherwise : Branch)
    (holds : Bool) (h : (branchHolds step c condition).outcome = .ok holds) :
    takenArm step c (.test condition actions otherwise)
      = if holds then ⟨[], .ok actions⟩ else takenArm step c otherwise := by
  have quiet := events_branchHolds step c condition
  rw [takenArm, Traced.bind_of_ok h, quiet]
  cases holds <;> rfl

/-- Conditions that do not hold are passed by, whatever their actions are. -/
theorem takenArm_chain (h : NoneHolds step c arms) (rest : Branch) :
    takenArm step c (.chain arms rest) = takenArm step c rest := by
  induction arms with
  | nil => rfl
  | cons arm arms ih =>
    obtain ⟨fails, others⟩ := List.forall_mem_cons.mp h
    obtain ⟨condition, actions⟩ := arm
    rw [Branch.chain_cons, takenArm_test _ _ _ false fails]
    exact ih others

theorem TakesNow.takenArm (h : TakesNow step c rest taken) :
    takenArm step c rest = ⟨[], .ok taken⟩ := by
  cases h with
  | holds h => exact takenArm_test _ _ _ true h
  | last => rfl

/-- If an arm is found, then it is behind conditions that do not hold. -/
theorem exists_chain_of_takenArm (h : (takenArm step c branch).outcome = .ok taken) :
    ∃ arms rest, branch = .chain arms rest ∧ NoneHolds step c arms
      ∧ TakesNow step c rest taken := by
  induction branch with
  | last actions =>
    cases h
    exact ⟨[], .last taken, rfl, fun _ none => absurd none List.not_mem_nil, .last taken⟩
  | test condition actions otherwise ih =>
    obtain ⟨holds, tried, h⟩ := outcome_bind_eq_ok.mp h
    cases holds with
    | true =>
      cases h
      exact ⟨[], .test condition taken otherwise, rfl,
        fun _ none => absurd none List.not_mem_nil, .holds tried⟩
    | false =>
      obtain ⟨arms, rest, rfl, fail, takes⟩ := ih h
      exact ⟨(condition, actions) :: arms, rest, rfl, List.forall_mem_cons.mpr ⟨tried, fail⟩,
        takes⟩

/-! ## §3 The task of a step that branches -/

/-- The body of a step that branches finds its arm, runs the actions of the arm and those of the
step, and puts its results at hand. -/
theorem stepBody_branch (f : Frame) (caller : Caller) (step : Step) (branch : Branch)
    (c : Context) : f.stepBody caller step (.conditionalBranch branch) c = (do
      let taken ← takenArm step c branch
      let c ← f.runActions taken c
      let c ← f.runActions step.actions c
      let c ← exposeResult step "result" c
      exposeResult step "item" c) := by
  unfold stepBody perform
  change Run.traced (f.conditionalBranch step branch c) >>= _ = _
  unfold conditionalBranch
  rw [takeBranch_eq]
  simp only [Run.traced_bind, bind_assoc, bind_pure]
  rfl

/-- Announces the body if the engine does so, and then goes on. -/
def announced (f : Frame) (step : Step) (body : Run Context) : Run Context := do
  if f.engine.announces then Run.report (.started (f.taskOf step))
  body

theorem gives_announced {body : Run Context} (h : (f.announced step body).Gives d) :
    body.Gives d := by
  unfold announced at h
  split at h
  · obtain ⟨_, _, h⟩ := Run.gives_bind h
    exact h
  · exact h

/-- A step that branches is attempted once. -/
theorem runTask_branch (named : step.typeName = "conditional_branch") :
    f.runTask caller step (.conditionalBranch branch) c
      = f.announced step (f.stepBody caller step (.conditionalBranch branch) c) := by
  have once : (f.taskOf step).repeatable = false := by
    unfold taskOf
    rw [named]
    rfl
  unfold runTask announced
  rw [Run.retrying_of_not_repeatable once]

/-- The task of a step that branches.
* If it succeeds, then the conditions of the branch have been tried up to the first one that holds,
  or all of them if none does.
* It then consists of the actions of the arm that is taken, on the context that the step is run on,
  and of the actions of the step, each once, with the results of the step put at hand at the end.
* Other actions in the arms before, and anything else behind the condition that holds, make no
  difference to it. -/
theorem branch_takes_first (f : Frame) (caller : Caller) (step : Step) (branch : Branch)
    (c : Context) (named : step.typeName = "conditional_branch") :
    (∀ s d t, f.runTask caller step (.conditionalBranch branch) c s = (.ok d, t) →
      ∃ arms rest taken, branch = .chain arms rest ∧ NoneHolds step c arms
        ∧ TakesNow step c rest taken) ∧
    ∀ arms rest taken, branch = .chain arms rest → NoneHolds step c arms →
      TakesNow step c rest taken →
        f.runTask caller step (.conditionalBranch branch) c = f.announced step (do
          let c ← f.runActions taken c
          let c ← f.runActions step.actions c
          let c ← exposeResult step "result" c
          exposeResult step "item" c) ∧
        ∀ others after, others.map (·.1) = arms.map (·.1) → TakesNow step c after taken →
          f.runTask caller step (.conditionalBranch (.chain others after)) c
            = f.runTask caller step (.conditionalBranch branch) c := by
  have runs : ∀ arms rest taken, NoneHolds step c arms → TakesNow step c rest taken →
      f.runTask caller step (.conditionalBranch (.chain arms rest)) c = f.announced step (do
        let c ← f.runActions taken c
        let c ← f.runActions step.actions c
        let c ← exposeResult step "result" c
        exposeResult step "item" c) := by
    intro arms rest taken fail takes
    rw [runTask_branch named, stepBody_branch, takenArm_chain fail, takes.takenArm]
    rfl
  refine ⟨?_, ?_⟩
  · intro s d t ran
    rw [runTask_branch named, stepBody_branch] at ran
    obtain ⟨taken, found, _⟩ := Run.gives_bind (gives_announced ⟨s, t, ran⟩)
    obtain ⟨arms, rest, same, fail, takes⟩ := exists_chain_of_takenArm (Run.gives_lift found)
    exact ⟨arms, rest, taken, same, fail, takes⟩
  · rintro arms rest taken rfl fail takes
    refine ⟨runs arms rest taken fail takes, ?_⟩
    intro others after same takes'
    rw [runs arms rest taken fail takes, runs others after taken (fail.congr same) takes']

/-- A toll: of three conditions the second one holds for somebody with five pieces of gold. The
first arm has an action that cannot be carried out, and the last condition is no expression. -/
def tollStep : Step where
  id := "toll"
  typeName := "conditional_branch"
  actions := [⟨"set_value", .mapping [("path", .text "variables.passed"), ("value", .bool true)]⟩]
  settings := [
    ("if", .text "variables.gold > 9"),
    ("then", .list [.mapping [("swap_values", .null)]]),
    ("else", .mapping [
      ("if", .text "variables.gold > 2"),
      ("then", .list [.mapping [("set_value",
        .mapping [("path", .text "variables.gold"), ("value", .int 2)])]]),
      ("else", .mapping [("if", .text "variables.gold >"), ("then", .list [])])])]

/-- The arm in the middle. -/
def tollArm : List Action :=
  [⟨"set_value", .mapping [("path", .text "variables.gold"), ("value", .int 2)]⟩]

/-- The arm in the middle is taken, and what is wrong with the others does not show. -/
theorem toll_is_paid :
    let f : Frame := ⟨{ catalog := {} }, {}, 0⟩
    let c := Context.empty.putSlot "variables" "gold" ⟨.int 5, .plain⟩
    let branch : Branch := .chain [(some (.text "variables.gold > 9"), [⟨"swap_values", .null⟩])]
      (.test (some (.text "variables.gold > 2")) tollArm
        (.test (some (.text "variables.gold >")) [] (.last [])))
    tollStep.kind = .ok (.conditionalBranch branch)
      ∧ (∃ d t,
        f.runTask noCaller tollStep (.conditionalBranch branch) c { host := {} } = (.ok d, t)
        ∧ (d.get "variables.gold").bind Value.asInt64? = some 2
        ∧ (d.get "variables.passed").any Value.truthy = true)
      ∧ f.runTask noCaller tollStep (.conditionalBranch branch) c
        = f.runTask noCaller tollStep (.conditionalBranch
            (.chain [(some (.text "variables.gold > 9"), [])]
              (.test (some (.text "variables.gold > 2")) tollArm (.last [])))) c := by
  intro f c branch
  have fails : NoneHolds tollStep c
      [(some (.text "variables.gold > 9"), [⟨"swap_values", .null⟩])] := by
    intro arm there
    cases List.mem_singleton.mp there
    exact eq_ok_of_toOption (by decide +kernel)
  have holds : (branchHolds tollStep c (some (.text "variables.gold > 2"))).outcome = .ok true :=
    eq_ok_of_toOption (by decide +kernel)
  have read : tollStep.kind = .ok (.conditionalBranch branch) := by rfl
  obtain ⟨_, runs⟩ := branch_takes_first f noCaller tollStep branch c rfl
  obtain ⟨_, alike⟩ := runs _ _ tollArm rfl fails (.holds holds)
  have same := alike [(some (.text "variables.gold > 9"), [])]
    (.test (some (.text "variables.gold > 2")) tollArm (.last [])) rfl (.holds holds)
  let paid (d : Context) : Bool :=
    (d.get "variables.gold").bind Value.asInt64? == some 2
      && (d.get "variables.passed").any Value.truthy
  have ends : (f.runTask noCaller tollStep (.conditionalBranch branch) c
      { host := {} }).1.toOption.any paid = true := by decide +kernel
  obtain ⟨d, t, ran, passes⟩ := Run.exists_of_test ends
  obtain ⟨gold, passed⟩ := Bool.and_eq_true_iff.mp passes
  exact ⟨read, ⟨d, t, ran, eq_of_beq gold, passed⟩, same.symm⟩

end Frame

end Tabletop
