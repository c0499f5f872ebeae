/-
Tabletop.Proofs.Run.Visit — steps as chains of moves.

A listing of a run is the run with a list of its own moves. Each type of
step is followed through its body: without its list the listing is the plain
step, and where a visit succeeds the moves that it has listed are a chain
from context to context, made on behalf of the actions of the step.

  §1 The actions of a step
  §2 Listings that track runs
  §3 The types of steps
  §4 Visits
-/
import Tabletop.Proofs.Run.Listed

namespace Tabletop

/-! ## §1 The actions of a step -/

/-- The actions in all arms of a branch. -/
def Branch.actions : Branch → List Action
  | .test _ actions otherwise => actions ++ otherwise.actions
  | .last actions => actions

/-- The actions of a choice as authored. -/
def choiceActions (choice : Value) : List Action :=
  match Frame.choiceOption choice with
  | .ok o => o.actions
  | .error _ => []

/-- The actions in the settings of a step. -/
def StepKind.actions : StepKind → List Action
  | .diceSequence (some sequence) => sequence.actions
  | .tableRoll tables => tables.flatMap (·.actions)
  | .playerChoice choices _ => choices.flatMap choiceActions
  | .conditionalBranch branch => branch.actions
  | _ => []

/-- The actions that a step may run, at any depth. -/
def Step.allActions (s : Step) : List Action :=
  s.preActions ++ s.actions ++
    match s.kind with
    | .ok kind => kind.actions
    | .error _ => []

/-- The actions that a flow may run, at any depth. -/
def Flow.allActions (f : Flow) : List Action := f.steps.flatMap Step.allActions

namespace Frame

open Traced

/-! ## §2 Listings that track runs -/

/-- The listing does what the run does; and where it succeeds, the moves that it lists are of the
kind and lead from the context to the one that there is with the value. -/
structure Tracks {α : Type} (f : Frame) (kind : Move → Prop) (c : Context) (x : Listing α)
    (y : Run α) (upto : α → Context) : Prop where
  same : ∀ trail, Prod.fst <$> x trail = y
  leads : ∀ {trail trail' : Trail} {a : α}, (x trail).Gives (a, trail') →
    ∃ moves, trail' = trail ++ moves ∧ f.Goes c moves (upto a) ∧ ∀ m ∈ moves, kind m.2

namespace Tracks

variable {α β : Type} {f : Frame} {kind : Move → Prop} {c : Context} {x : Listing α} {y : Run α}
  {upto : α → Context}

theorem pure {a : α} (here : upto a = c) : Tracks f kind c (Pure.pure a) (Pure.pure a) upto where
  same trail := by
    change Prod.fst <$> (Pure.pure (a, trail) : Run (α × Trail)) = _
    rw [map_pure]
  leads h := by
    cases Run.gives_pure h
    cases here
    exact ⟨[], (List.append_nil _).symm, .rest _, fun _ none => absurd none List.not_mem_nil⟩

theorem stop (h : ∀ a, ¬ y.Gives a) : Tracks f kind c (liftM y) y upto where
  same trail := by
    change Prod.fst <$> (y >>= fun a => Pure.pure (a, trail)) = y
    simp
  leads gives := by
    obtain ⟨a, there, _⟩ := Run.gives_bind gives
    exact absurd there (h a)

theorem bind {x : Listing β} {y : Run β} {mid : β → Context} {next : β → Listing α}
    {next' : β → Run α} (first : Tracks f kind c x y mid)
    (after : ∀ b, Tracks f kind (mid b) (next b) (next' b) upto) :
    Tracks f kind c (x >>= next) (y >>= next') upto where
  same trail := by
    change Prod.fst <$> (x trail >>= fun p => next p.1 p.2) = _
    simp only [map_bind, (after _).same]
    rw [← first.same trail, bind_map_left]
  leads gives := by
    obtain ⟨⟨b, trail⟩, there, gives⟩ := Run.gives_bind gives
    obtain ⟨few, rfl, goes, own⟩ := first.leads there
    obtain ⟨more, rfl, goes', own'⟩ := (after b).leads gives
    exact ⟨few ++ more, List.append_assoc _ _ _, goes.append goes',
      List.forall_mem_append.mpr ⟨own, own'⟩⟩

theorem read {y : Run β} {next : β → Listing α} {next' : β → Run α}
    (after : ∀ b, Tracks f kind c (next b) (next' b) upto) :
    Tracks f kind c (liftM y >>= next) (y >>= next') upto where
  same trail := by
    change Prod.fst <$> ((y >>= fun b => Pure.pure (b, trail)) >>= fun p => next p.1 p.2) = _
    simp [(after _).same]
  leads gives := by
    obtain ⟨⟨b, trail⟩, there, gives⟩ := Run.gives_bind gives
    obtain ⟨b, _, there⟩ := Run.gives_bind there
    cases Run.gives_pure there
    exact (after b).leads gives

/-- What has been read is known. -/
theorem read_traced {t : Traced β} {next : β → Listing α} {next' : β → Run α}
    (after : ∀ b, t.outcome = .ok b → Tracks f kind c (next b) (next' b) upto) :
    Tracks f kind c (liftM t >>= next) (liftM t >>= next') upto where
  same trail := by
    change Prod.fst <$> ((Run.traced t >>= fun b => Pure.pure (b, trail)) >>= fun p => next p.1 p.2)
      = Run.traced t >>= next'
    simp only [bind_assoc, pure_bind, map_bind]
    funext s
    rw [Run.bind_apply, Run.bind_apply, Run.traced_apply]
    cases h : t.outcome with
    | error failure => rfl
    | ok b => exact congrFun ((after b h).same trail) _
  leads gives := by
    obtain ⟨⟨b, trail⟩, there, gives⟩ := Run.gives_bind gives
    obtain ⟨b, given, there⟩ := Run.gives_bind there
    cases Run.gives_pure there
    exact (after b (Run.gives_traced given)).leads gives

theorem make {t : Traced Context} {moves : Trail} (goes : ∀ d, t.outcome = .ok d → f.Goes c moves d)
    (own : ∀ m ∈ moves, kind m.2) :
    Tracks f kind c (Listed.make t moves) (Run.traced t) id where
  same trail := by
    change Prod.fst <$> ((Run.traced t >>= fun d => Pure.pure (d, trail)) >>= fun p =>
      (Pure.pure (p.1, p.2 ++ moves) : Run (Context × Trail))) = _
    simp
  leads gives := by
    obtain ⟨⟨d, trail⟩, there, gives⟩ := Run.gives_bind gives
    obtain ⟨d, given, there⟩ := Run.gives_bind there
    cases Run.gives_pure there
    cases Run.gives_pure gives
    exact ⟨moves, rfl, goes _ (Run.gives_traced given), own⟩

theorem retrying (asked : Nat) (task : StepTask) (h : Tracks f kind c x y upto) :
    Tracks f kind c (Listed.retrying asked task x) (Run.retrying asked task y) upto where
  same trail := by
    change Prod.fst <$> Run.retrying asked task (x trail) = _
    rw [Run.map_retrying, h.same]
  leads gives := h.leads (Run.gives_retrying gives)

theorem atStep (id : String) (h : Tracks f kind c x y upto) :
    Tracks f kind c (Listed.atStep id x) (Run.atStep id y) upto where
  same trail := by
    change Prod.fst <$> Run.atStep id (x trail) = _
    rw [Run.map_atStep, h.same]
  leads gives := h.leads (Run.gives_atStep gives)

/-! The same for runs that are traced computations. -/

theorem pure_traced {a : α} (here : upto a = c) :
    Tracks f kind c (Pure.pure a) (Run.traced (Pure.pure a)) upto := by
  rw [Run.traced_pure]
  exact .pure here

theorem bind_traced {x : Listing β} {t : Traced β} {mid : β → Context} {next : β → Listing α}
    {next' : β → Traced α} (first : Tracks f kind c x (Run.traced t) mid)
    (after : ∀ b, Tracks f kind (mid b) (next b) (Run.traced (next' b)) upto) :
    Tracks f kind c (x >>= next) (Run.traced (t >>= next')) upto := by
  rw [Run.traced_bind]
  exact first.bind after

theorem traced_read {t : Traced β} {next : β → Listing α} {next' : β → Traced α}
    (after : ∀ b, t.outcome = .ok b → Tracks f kind c (next b) (Run.traced (next' b)) upto) :
    Tracks f kind c (liftM t >>= next) (Run.traced (t >>= next')) upto := by
  rw [Run.traced_bind]
  exact read_traced after

/-- The aliases are dropped at the end of a visit. -/
theorem clear {all : List Action} (v : α) :
    Tracks f (Move.IsOf all) c (do
      Listed.note [(c, .clear)]
      Pure.pure (c.clearAliases, v)) (Pure.pure (c.clearAliases, v)) Prod.fst where
  same trail := by
    change Prod.fst <$> (Pure.pure ((c.clearAliases, v), trail ++ [(c, .clear)]) : Run _) = _
    rw [map_pure]
  leads gives := by
    cases Run.gives_pure gives
    exact ⟨[(c, .clear)], rfl, .move .clear (.rest _), List.forall_mem_singleton.mpr trivial⟩

/-! What follows for the run. -/

/-- Where the run succeeds, so does its listing, and the other way round. -/
theorem eq_ok_iff (h : Tracks f kind c x y upto) (trail : Trail) {s t : Session} {a : α} :
    y s = (.ok a, t) ↔ ∃ trail', x trail s = (.ok (a, trail'), t) := by
  rw [← h.same trail, Run.map_apply]
  constructor
  · intro ran
    cases listed : x trail s with
    | mk outcome u =>
      rw [listed] at ran
      cases outcome with
      | error stop => cases ran
      | ok p =>
        cases ran
        exact ⟨p.2, rfl⟩
  · rintro ⟨trail', listed⟩
    rw [listed]
    rfl

end Tracks

/-! ## §3 The types of steps -/

variable {f : Frame} {caller : Caller} {step : Step} {c : Context} {all : List Action}

/-- A path below the data of a step, as messages and writes spell it. -/
theorem undeclared_below (step : Step) (name : String) : Undeclared (step.place ++ name) :=
  undeclared_step step ⟨name.toList, String.toList_append⟩

theorem tracks_put {path : String} {v : Value} (place : Undeclared path) :
    Tracks f (Move.IsOf all) c (Listed.put c path v) (Run.traced (c.put path v)) id :=
  .make (fun _ h => goes_put h) (List.forall_mem_singleton.mpr (Or.inl place))

theorem tracks_putOwn {name : String} {v : Value} :
    Tracks f (Move.IsOf all) c (Listed.put c (step.place ++ name) v)
      (Run.traced (c.put (step.place ++ name) v)) id :=
  tracks_put (undeclared_below step name)

theorem tracks_putAlias {path name : String} {v : Value} (named : Path.split path = [name]) :
    Tracks f (Move.IsOf all) c (Listed.put c path v) (Run.traced (c.put path v)) id :=
  tracks_put (undeclared_alias named)

theorem tracks_runActions {actions : List Action} (sub : ∀ a ∈ actions, a ∈ all) :
    Tracks f (Move.IsOf all) c (Listed.runActions f actions c)
      (Run.traced (f.runActions actions c)) id :=
  .make (fun _ h => goes_runActions h) (isOf_movesOf sub c)

theorem tracks_diceRoll {roll : Option Value} :
    Tracks f (Move.IsOf all) c (Listed.diceRoll step roll c) (diceRoll step roll c) id := by
  unfold Listed.diceRoll diceRoll
  cases presentSetting? roll with
  | none => exact .stop fun _ => Run.not_gives_fail
  | some expression => exact .read fun _ => tracks_putOwn

theorem tracks_rollForItems {expression : Value} {actions : List Action} {items : List Value}
    (sub : ∀ a ∈ actions, a ∈ all) :
    Tracks f (Move.IsOf all) c (Listed.rollForItems f step expression actions items c)
      (f.rollForItems step expression actions items c) id := by
  induction items generalizing c with
  | nil => exact .pure rfl
  | cons item rest ih =>
    unfold Listed.rollForItems rollForItems
    refine tracks_putOwn.bind fun _ => ?_
    refine (tracks_putAlias (by rfl)).bind fun _ => ?_
    refine .read fun _ => ?_
    refine tracks_putOwn.bind fun _ => ?_
    refine (tracks_putAlias (by rfl)).bind fun _ => ?_
    exact (tracks_runActions sub).bind fun _ => ih

theorem tracks_diceSequence {sequence : Option DiceSequence}
    (sub : ∀ a ∈ (StepKind.diceSequence sequence).actions, a ∈ all) :
    Tracks f (Move.IsOf all) c (Listed.diceSequence f step sequence c)
      (f.diceSequence step sequence c) id := by
  cases sequence with
  | none => exact .stop fun _ => Run.not_gives_fail
  | some s =>
    unfold Listed.diceSequence diceSequence
    refine .read_traced fun items _ => ?_
    rcases items with _ | _ | _ | _ | _ | (_ | ⟨first, rest⟩) | _
    case list.cons =>
      dsimp only
      cases presentSetting? s.roll with
      | none => exact .stop fun _ => Run.not_gives_fail
      | some expression => exact tracks_rollForItems sub
    all_goals exact .stop fun _ => Run.not_gives_fail

theorem tracks_rollOnTable {target : TableTarget} (sub : ∀ a ∈ target.actions, a ∈ all) :
    Tracks f (Move.IsOf all) c (Listed.rollOnTable f step target c) (f.rollOnTable step target c)
      id := by
  unfold Listed.rollOnTable rollOnTable
  cases presentId? target.table with
  | none => exact .stop fun _ => Run.not_gives_fail
  | some id =>
    refine .read_traced fun t _ => ?_
    split
    · exact .stop fun _ => Run.not_gives_fail
    · refine .read fun _ => ?_
      refine .read_traced fun _ _ => ?_
      refine tracks_putOwn.bind fun _ => ?_
      exact (tracks_putAlias (by rfl)).bind fun _ => tracks_runActions sub

theorem tracks_rollOnTables {targets : List TableTarget}
    (sub : ∀ a ∈ (StepKind.tableRoll targets).actions, a ∈ all) :
    Tracks f (Move.IsOf all) c (Listed.rollOnTables f step targets c)
      (f.rollOnTables step targets c) id := by
  induction targets generalizing c with
  | nil => exact .pure rfl
  | cons target rest ih =>
    have sub : ∀ a ∈ target.actions ++ (StepKind.tableRoll rest).actions, a ∈ all := sub
    obtain ⟨first, later⟩ := List.forall_mem_append.mp sub
    exact (tracks_rollOnTable first).bind fun _ => ih later

theorem tracks_tableRoll {targets : List TableTarget}
    (sub : ∀ a ∈ (StepKind.tableRoll targets).actions, a ∈ all) :
    Tracks f (Move.IsOf all) c (Listed.tableRoll f step targets c) (f.tableRoll step targets c)
      id := by
  unfold Listed.tableRoll tableRoll
  split
  · exact .stop fun _ => Run.not_gives_fail
  · exact tracks_rollOnTables sub

theorem tracks_playerInput :
    Tracks f (Move.IsOf all) c (Listed.playerInput step c) (playerInput step c) id :=
  .read_traced fun _ _ => .read fun _ => tracks_putOwn

theorem tracks_nameGeneration {settings : NameSettings} :
    Tracks f (Move.IsOf all) c (Listed.nameGeneration f step settings c)
      (f.nameGeneration step settings c) id := by
  unfold Listed.nameGeneration nameGeneration
  refine .read_traced fun _ _ => ?_
  refine .read_traced fun _ _ => ?_
  refine .read_traced fun _ _ => ?_
  refine .read_traced fun _ _ => ?_
  exact .read fun _ => tracks_putOwn

theorem tracks_llmGeneration {request : LlmRequest} :
    Tracks f (Move.IsOf all) c (Listed.llmGeneration f step request c)
      (f.llmGeneration step request c) id := by
  unfold Listed.llmGeneration llmGeneration
  cases presentId? request.promptId with
  | none => exact .stop fun _ => Run.not_gives_fail
  | some id =>
    refine .read_traced fun _ _ => ?_
    refine .read_traced fun _ _ => ?_
    exact .read fun _ => tracks_putOwn

theorem tracks_storeOutputs {outputs : Fields} {paths : Entries String} :
    Tracks f (Move.IsOf all) c (Listed.storeOutputs f outputs paths c)
      (Run.traced (f.storeOutputs outputs paths c)) id := by
  induction paths generalizing c with
  | nil => exact .pure_traced rfl
  | cons e rest ih =>
    obtain ⟨output, path⟩ := e
    unfold Listed.storeOutputs storeOutputs
    cases Entries.get? outputs output with
    | none => exact ih
    | some v =>
      have stored : Tracks f (Move.IsOf all) c (Listed.store f c (trim path) v)
          (Run.traced (f.store c (trim path) v)) id :=
        .make (fun _ h => goes_store h) (List.forall_mem_singleton.mpr trivial)
      exact stored.bind_traced fun _ => ih

/-- What is kept about a call is no declared place. -/
theorem undeclared_call (flow : String) (number : Nat) :
    Undeclared s!"sub_flows.{flow}_{natText number}" := by
  refine undeclared_subFlow ⟨(flow ++ "_" ++ natText number).toList, ?_⟩
  simp [toString]

theorem undeclared_callOutputs (flow : String) (number : Nat) :
    Undeclared (s!"sub_flows.{flow}_{natText number}" ++ ".outputs") := by
  refine undeclared_subFlow ⟨(flow ++ "_" ++ natText number ++ ".outputs").toList, ?_⟩
  simp [toString]

theorem tracks_flowCall {call : FlowCall} :
    Tracks f (Move.IsOf all) c (Listed.flowCall f caller step call c)
      (f.flowCall caller step call c) id := by
  unfold Listed.flowCall flowCall
  cases presentId? call.flow with
  | none => exact .stop fun _ => Run.not_gives_fail
  | some flow =>
    dsimp only
    split
    · exact .stop fun _ => Run.not_gives_fail
    · refine .read_traced fun _ _ => ?_
      refine .read fun number => ?_
      refine (tracks_put (undeclared_call _ number)).bind fun _ => ?_
      refine .read fun _ => ?_
      refine (tracks_put (undeclared_callOutputs _ number)).bind fun _ => ?_
      exact tracks_putOwn.bind fun _ => tracks_storeOutputs

theorem tracks_takeBranch {branch : Branch} (sub : ∀ a ∈ branch.actions, a ∈ all) :
    Tracks f (Move.IsOf all) c (Listed.takeBranch f step c branch)
      (Run.traced (f.takeBranch step c branch)) id := by
  induction branch with
  | last actions => exact tracks_runActions sub
  | test condition actions otherwise ih =>
    obtain ⟨taken, others⟩ := List.forall_mem_append.mp sub
    unfold Listed.takeBranch takeBranch
    refine .traced_read fun holds _ => ?_
    cases holds with
    | true => exact tracks_runActions taken
    | false => exact ih others

theorem tracks_conditionalBranch {branch : Branch} (sub : ∀ a ∈ branch.actions, a ∈ all)
    (own : ∀ a ∈ step.actions, a ∈ all) :
    Tracks f (Move.IsOf all) c (Listed.conditionalBranch f step branch c)
      (Run.traced (f.conditionalBranch step branch c)) id :=
  (tracks_takeBranch sub).bind_traced fun _ => tracks_runActions own

theorem tracks_selectSeveral {source : Option ChoiceSource} {count : Nat} {selection : Value} :
    Tracks f (Move.IsOf all) c (Listed.selectSeveral f step source count selection c)
      (Run.traced (f.selectSeveral step source count selection c)) id := by
  unfold Listed.selectSeveral selectSeveral
  refine .traced_read fun _ _ => ?_
  refine .traced_read fun _ _ => ?_
  refine tracks_putOwn.bind_traced fun _ => ?_
  exact (tracks_putAlias (by rfl)).bind_traced fun _ => tracks_putOwn

/-- A choice that is found is one of the choices. -/
theorem mem_of_findChoice {wanted : String} {choices : List Value} {o : ChoiceOption}
    (h : findChoice wanted choices = .ok (some o)) :
    ∃ choice ∈ choices, choiceOption choice = .ok o := by
  induction choices with
  | nil => cases h
  | cons choice rest ih =>
    unfold findChoice at h
    cases hc : choiceOption choice with
    | error e =>
      rw [hc] at h
      cases h
    | ok found =>
      simp only [hc, bind, Except.bind] at h
      split at h
      · cases h
        exact ⟨choice, List.mem_cons_self, hc⟩
      · obtain ⟨other, ho, hoption⟩ := ih h
        exact ⟨other, List.mem_cons_of_mem _ ho, hoption⟩

theorem tracks_selectOne {source : Option ChoiceSource} {choices : List Value}
    {selection : Value} (sub : ∀ choice ∈ choices, ∀ a ∈ choiceActions choice, a ∈ all) :
    Tracks f (Move.IsOf all) c (Listed.selectOne f step source choices selection c)
      (Run.traced (f.selectOne step source choices selection c)) id := by
  unfold Listed.selectOne selectOne
  refine .traced_read fun _ _ => ?_
  refine tracks_putOwn.bind_traced fun _ => ?_
  refine (tracks_putAlias (by rfl)).bind_traced fun _ => ?_
  refine .traced_read fun found read => ?_
  cases found with
  | none => exact .pure_traced rfl
  | some chosen =>
    have own : ∀ a ∈ chosen.actions, a ∈ all := by
      obtain ⟨choice, there, reads⟩ := mem_of_findChoice read
      intro a ha
      refine sub choice there a ?_
      unfold choiceActions
      rw [reads]
      exact ha
    refine (tracks_runActions own).bind_traced fun _ => ?_
    cases chosen.nextStep.filter fun s => !isBlankText s with
    | none => exact .pure_traced rfl
    | some target => exact tracks_putOwn

/-- A choice made for the player has no actions. -/
theorem choiceActions_generated (id label : String) :
    choiceActions (generatedChoice id label) = [] := by
  rfl

theorem mem_of_tableChoices {template : String} {entries : List TableEntry} {choices : List Value}
    (h : (tableChoices c template entries).outcome = .ok choices) :
    ∀ choice ∈ choices, ∃ id label, choice = generatedChoice id label := by
  induction entries generalizing choices with
  | nil =>
    cases h
    intro choice hc
    cases hc
  | cons e rest ih =>
    unfold tableChoices at h
    split at h
    · exact ih h
    · obtain ⟨label, _, h⟩ := outcome_bind_eq_ok.mp h
      obtain ⟨more, hm, h⟩ := outcome_bind_eq_ok.mp h
      cases h
      exact List.forall_mem_cons.mpr ⟨⟨_, _, rfl⟩, ih hm⟩

theorem mem_of_keyChoices {template : String} {fields : Fields} {choices : List Value}
    (h : (keyChoices c template fields).outcome = .ok choices) :
    ∀ choice ∈ choices, ∃ id label, choice = generatedChoice id label := by
  induction fields generalizing choices with
  | nil =>
    cases h
    intro choice hc
    cases hc
  | cons e rest ih =>
    obtain ⟨key, v⟩ := e
    obtain ⟨_, _, h⟩ := outcome_bind_eq_ok.mp h
    obtain ⟨_, _, h⟩ := outcome_bind_eq_ok.mp h
    obtain ⟨label, _, h⟩ := outcome_bind_eq_ok.mp h
    obtain ⟨more, hm, h⟩ := outcome_bind_eq_ok.mp h
    cases h
    exact List.forall_mem_cons.mpr ⟨⟨_, _, rfl⟩, ih hm⟩

/-- Only authored choices have actions. -/
theorem choiceActions_offered {choices shown : List Value} {source : Option ChoiceSource}
    (h : (f.offered choices source c).outcome = .ok shown) :
    ∀ choice ∈ shown, ∀ a ∈ choiceActions choice, a ∈ choices.flatMap choiceActions := by
  have none_made : (∀ choice ∈ shown, ∃ id label, choice = generatedChoice id label) →
      ∀ choice ∈ shown, ∀ a ∈ choiceActions choice, a ∈ choices.flatMap choiceActions := by
    intro made choice hc a ha
    obtain ⟨id, label, rfl⟩ := made choice hc
    rw [choiceActions_generated] at ha
    cases ha
  cases source with
  | none =>
    cases h
    intro choice hc a ha
    exact List.mem_flatMap.mpr ⟨choice, hc, ha⟩
  | some s =>
    change (f.choicesOf s c).outcome = .ok shown at h
    unfold choicesOf at h
    split at h
    · obtain ⟨t, _, h⟩ := outcome_bind_eq_ok.mp h
      exact none_made (mem_of_tableChoices h)
    · obtain ⟨data, _, h⟩ := outcome_bind_eq_ok.mp h
      cases data with
      | mapping fields => exact none_made (mem_of_keyChoices h)
      | _ => cases h
    · cases h

theorem tracks_playerChoice {choices : List Value} {source : Option ChoiceSource}
    (sub : ∀ a ∈ (StepKind.playerChoice choices source).actions, a ∈ all) :
    Tracks f (Move.IsOf all) c (Listed.playerChoice f step choices source c)
      (f.playerChoice step choices source c) id := by
  unfold Listed.playerChoice playerChoice
  refine .read fun _ => ?_
  split
  · exact .stop fun _ => Run.not_gives_fail
  · refine .read_traced fun shown offers => ?_
    refine .read_traced fun _ _ => ?_
    refine .read fun _ => ?_
    have own : ∀ choice ∈ shown, ∀ a ∈ choiceActions choice, a ∈ all := fun choice hc a ha =>
      sub a (choiceActions_offered offers choice hc a ha)
    cases source with
    | none => exact tracks_selectOne own
    | some s =>
      dsimp only
      split
      · exact tracks_selectSeveral
      · exact tracks_selectOne own

theorem tracks_perform {kind : StepKind} (sub : ∀ a ∈ kind.actions, a ∈ all)
    (own : ∀ a ∈ step.actions, a ∈ all) :
    Tracks f (Move.IsOf all) c (Listed.perform f caller step c kind) (f.perform caller step c kind)
      id := by
  unfold Listed.perform perform
  cases kind with
  | completion => exact tracks_putOwn
  | diceRoll roll => exact tracks_diceRoll
  | diceSequence sequence => exact tracks_diceSequence sub
  | tableRoll tables => exact tracks_tableRoll sub
  | playerInput => exact tracks_playerInput
  | playerChoice choices source => exact tracks_playerChoice sub
  | nameGeneration settings => exact tracks_nameGeneration
  | llmGeneration request => exact tracks_llmGeneration
  | flowCall call => exact tracks_flowCall
  | conditionalBranch branch => exact tracks_conditionalBranch sub own
  | unknown => exact .read fun _ => .pure rfl

/-! ## §4 Visits -/

theorem tracks_exposeResult {name : String} (named : Path.split name = [name]) :
    Tracks f (Move.IsOf all) c (Listed.exposeResult step name c)
      (Run.traced (exposeResult step name c)) id := by
  unfold Listed.exposeResult exposeResult
  cases c.get s!"{step.place}.{name}" with
  | some v => exact tracks_putAlias named
  | none => exact .pure_traced rfl

theorem tracks_stepActions (own : ∀ a ∈ step.actions, a ∈ all) :
    Tracks f (Move.IsOf all) c (Listed.stepActions f step c) (Run.traced (f.stepActions step c))
      id := by
  unfold Listed.stepActions stepActions
  split
  · exact .pure_traced rfl
  · split
    · exact .make (fun _ h => goes_runBatch h) (List.forall_mem_singleton.mpr own)
    · exact tracks_runActions own

theorem tracks_stepBody {kind : StepKind} (sub : ∀ a ∈ kind.actions, a ∈ all)
    (own : ∀ a ∈ step.actions, a ∈ all) :
    Tracks f (Move.IsOf all) c (Listed.stepBody f caller step kind c)
      (f.stepBody caller step kind c) id := by
  unfold Listed.stepBody stepBody
  refine (tracks_perform sub own).bind fun _ => ?_
  refine (tracks_exposeResult (by rfl)).bind fun _ => ?_
  refine (tracks_exposeResult (by rfl)).bind fun _ => ?_
  cases kind with
  | conditionalBranch branch => exact .pure rfl
  | _ => exact tracks_stepActions own

theorem tracks_runTask {kind : StepKind} (sub : ∀ a ∈ kind.actions, a ∈ all)
    (own : ∀ a ∈ step.actions, a ∈ all) :
    Tracks f (Move.IsOf all) c (Listed.runTask f caller step kind c)
      (f.runTask caller step kind c) id := by
  have body : Tracks f (Move.IsOf all) c (Listed.stepBody f caller step kind c)
      (f.stepBody caller step kind c) id := tracks_stepBody sub own
  have attempted := body.retrying f.engine.attempts (f.taskOf step)
  unfold Listed.runTask runTask
  split
  · exact .read fun _ => attempted
  · exact attempted

theorem kind_of_kindOf {kind : StepKind} (h : kindOf step = .ok kind) : step.kind = .ok kind := by
  unfold kindOf at h
  cases hs : step.kind with
  | ok k =>
    rw [hs] at h
    cases h
    rfl
  | error e =>
    rw [hs] at h
    cases h

/-- A visit makes moves on behalf of the actions of the step. -/
theorem tracks_visit (sub : ∀ a ∈ step.allActions, a ∈ all) :
    Tracks f (Move.IsOf all) c (Listed.visit f caller step c) (f.visit caller step c) Prod.fst := by
  obtain ⟨sub, inside⟩ := List.forall_mem_append.mp sub
  obtain ⟨before, own⟩ := List.forall_mem_append.mp sub
  unfold Listed.visit visit
  refine (tracks_put (undeclared_step step ⟨[], (List.append_nil _).symm⟩)).bind fun _ => ?_
  refine .read_traced fun holds _ => ?_
  cases holds with
  | false => exact .clear _
  | true =>
    refine .read_traced fun kind read => ?_
    rw [kind_of_kindOf read] at inside
    refine (tracks_runActions before).bind fun _ => ?_
    exact (tracks_runTask inside own).bind fun _ => .clear _

theorem tracks_advance {index : Nat} (sub : ∀ a ∈ step.allActions, a ∈ all) :
    Tracks f (Move.IsOf all) c (Listed.advance f caller step index c)
      (f.advance caller step index c) Prod.fst := by
  unfold Listed.advance advance
  refine .read fun _ => ?_
  refine (tracks_visit sub).bind fun p => ?_
  obtain ⟨d, visit⟩ := p
  dsimp only
  split
  · refine .read fun _ => ?_
    exact .read_traced fun next _ => .pure rfl
  · exact .read_traced fun next _ => .pure rfl

end Frame

end Tabletop
