/-
Tabletop.Proofs.Run.Deed — what steps do as their authors say.

A step carries out actions and stores outputs of flows. Each of them is a
deed, done on some context, and writes at some paths. Here every deed of a
body is listed with the context on which it is done (`Does`); all of them
are authored in the step.

  §1 Writes at some paths
  §2 Deeds
  §3 Actions in rounds
  §4 Branches and outputs
  §5 Choices
  §6 What bodies do
  §7 What is authored
-/
import Tabletop.Proofs.Run.Aliases
import Tabletop.Proofs.Run.Isolation

namespace Tabletop

open Traced

/-! ## §1 Writes at some paths -/

namespace Context

/-- The context comes from `base` by tags, and by writes at paths that satisfy `P`. -/
inductive EditsAt (P : Path → Prop) (base : Context) : Context → Prop
  | refl : EditsAt P base base
  | write {c d : Context} {state : SlotState} {v : Value} {p : Path} (before : EditsAt P base c)
      (here : P p) (step : c.write state v p = .ok d) : EditsAt P base d
  | retagSlot {c : Context} (space entry : String) (state : SlotState)
      (before : EditsAt P base c) : EditsAt P base (c.retagSlot space entry state)

variable {P : Path → Prop} {base c d : Context}

theorem EditsAt.retag (before : base.EditsAt P c) (path : String) (state : SlotState) :
    base.EditsAt P (c.retag path state) := by
  unfold Context.retag
  split
  · exact before.retagSlot _ _ state
  · exact before

theorem EditsAt.applyChanges {changes : List Change} (before : base.EditsAt P c)
    (h : c.applyChanges changes = .ok d) (here : ∀ p v, .write p v ∈ changes → P p) :
    base.EditsAt P d := by
  induction changes generalizing c with
  | nil =>
    cases h
    exact before
  | cons change rest ih =>
    obtain ⟨m, one, others⟩ := applyChanges_cons h
    refine ih ?_ others fun p v hw => here p v (List.mem_cons_of_mem _ hw)
    cases change with
    | write p v => exact before.write (here p v List.mem_cons_self) one
    | retag space entry state =>
      cases one
      exact before.retagSlot space entry state

/-- A tag leaves what is read inside entries. -/
theorem lookup_retagSlot (c : Context) (space entry : String) (state : SlotState) (s e : String)
    (rest : Path) :
    (c.retagSlot space entry state).lookup (s :: e :: rest) = c.lookup (s :: e :: rest) := by
  cases ha : Entries.get? c.aliases s with
  | some v =>
    have kept : Entries.get? (c.retagSlot space entry state).aliases s = some v := by
      rw [aliases_retagSlot, ha]
    rw [lookup_of_alias kept, lookup_of_alias ha]
  | none =>
    have kept : Entries.get? (c.retagSlot space entry state).aliases s = none := by
      rw [aliases_retagSlot, ha]
    rw [lookup_entry kept, lookup_entry ha, stored?_retagSlot]

/-- Writes leave what is read inside entries at paths that diverge from theirs. -/
theorem EditsAt.lookup {s e : String} {rest : Path} (h : base.EditsAt P c)
    (apart : ∀ p, P p → p.Diverges (s :: e :: rest)) :
    c.lookup (s :: e :: rest) = base.lookup (s :: e :: rest) := by
  induction h with
  | refl => rfl
  | write _ here step ih => exact (lookup_write_of_diverges step (apart _ here)).trans ih
  | retagSlot space entry state _ ih => exact (lookup_retagSlot ..).trans ih

end Context

/-! ## §2 Deeds -/

/-- What is done in a step as its author says. -/
inductive Deed where
  | act (a : Action)
  | batch (actions : List Action)
  /-- An output of a flow is stored. -/
  | keep (path : String)

/-- The deed is authored in the step, or in its settings. -/
def Deed.IsOf (step : Step) (kind : StepKind) : Deed → Prop
  | .act a => a ∈ step.actions ∨ a ∈ kind.actions
  | .batch actions => actions = step.actions
  | .keep path => ∃ call, kind = .flowCall call ∧ path ∈ call.outputs.map (·.2)

/-- The deed, done on the context, writes at the path. A batch writes what its actions have
changed. -/
def Deed.WritesAt (f : Frame) (c : Context) : Deed → Path → Prop
  | .act a, p => ∃ path, a.WritesTo c path ∧ Path.split path = p
  | .batch actions, p => ∃ a ∈ actions, ∃ d notices v, (f.runAction a c).outcome = .ok (d, notices)
      ∧ .write p v ∈ d.changesSince c
  | .keep path, p => Path.split (trim path) = p

/-- The deed, done on the context, writes to the place, on the way to it or beyond it. -/
def Deed.Meets (f : Frame) (c : Context) (place : Path) (deed : Deed) : Prop :=
  ∃ p, deed.WritesAt f c p ∧ ¬ p.Diverges place

namespace Frame

variable {f : Frame} {caller : Caller} {step : Step} {c d e : Context} {s t : Session}

theorem editsAt_carryOut {P : Path → Prop} {a : Action} {command : Command} {notice : Notice}
    (h : (f.carryOut a c command).outcome = .ok (d, notice))
    (here : ∀ written ∈ command.targets, ∀ path, (c.resolvePath written).outcome = .ok path →
      P (Path.split path)) : c.EditsAt P d := by
  cases command with
  | setValue written v =>
    obtain ⟨m, done, h⟩ := outcome_bind_eq_ok.mp h
    cases h
    obtain ⟨path, found, done⟩ := outcome_bind_eq_ok.mp done
    obtain ⟨w, _, done⟩ := outcome_bind_eq_ok.mp done
    obtain ⟨_, _, _, stored⟩ := outcome_store_eq_ok.mp done
    exact .write .refl (here written (by simp [Command.targets]) path found) stored
  | swapValues first second =>
    obtain ⟨m, done, h⟩ := outcome_bind_eq_ok.mp h
    cases h
    obtain ⟨one, found, done⟩ := outcome_bind_eq_ok.mp done
    obtain ⟨other, found', done⟩ := outcome_bind_eq_ok.mp done
    obtain ⟨n, there, back⟩ := outcome_bind_eq_ok.mp done
    have begun : c.EditsAt P n :=
      .write .refl (here first (by simp [Command.targets]) one found)
        (Context.outcome_writeTraced_eq_ok.mp there)
    exact begun.write (here second (by simp [Command.targets]) other found')
      (Context.outcome_writeTraced_eq_ok.mp back)
  | validateValue path =>
    obtain ⟨m, done, h⟩ := outcome_bind_eq_ok.mp h
    cases h
    obtain ⟨path, _, done⟩ := outcome_bind_eq_ok.mp done
    split at done
    · cases done
    · split at done
      · cases done
        exact .refl
      · obtain ⟨_, _, done⟩ := outcome_bind_eq_ok.mp done
        cases done
        exact Context.EditsAt.refl.retag path _
  | logMessage message =>
    obtain ⟨_, _, h⟩ := outcome_bind_eq_ok.mp h
    obtain ⟨_, _, h⟩ := outcome_bind_eq_ok.mp h
    cases h
    exact .refl
  | displayMessage message =>
    obtain ⟨_, _, h⟩ := outcome_bind_eq_ok.mp h
    cases h
    exact .refl
  | logEvent typeName data =>
    obtain ⟨_, _, h⟩ := outcome_bind_eq_ok.mp h
    obtain ⟨_, _, h⟩ := outcome_bind_eq_ok.mp h
    obtain ⟨_, _, h⟩ := outcome_bind_eq_ok.mp h
    cases h
    exact .refl
  | displayValue path =>
    obtain ⟨_, _, h⟩ := outcome_bind_eq_ok.mp h
    cases h
    exact .refl

/-- An action writes where it says. -/
theorem editsAt_runAction {a : Action} {notices : List Notice}
    (h : (f.runAction a c).outcome = .ok (d, notices)) :
    c.EditsAt ((Deed.act a).WritesAt f c) d := by
  unfold runAction at h
  obtain ⟨command, read, h⟩ := outcome_bind_eq_ok.mp h
  cases command with
  | none =>
    obtain ⟨_, _, h⟩ := outcome_bind_eq_ok.mp h
    cases h
    exact .refl
  | some command =>
    obtain ⟨⟨m, notice⟩, done, h⟩ := outcome_bind_eq_ok.mp h
    cases h
    refine editsAt_carryOut (outcome_during_eq_ok.mp done) ?_
    intro written target path found
    exact ⟨path, ⟨command, read, written, target, found⟩, rfl⟩

/-- A batch writes what its actions have changed. -/
theorem editsAt_runBatch {actions : List Action} (h : (f.runBatch actions c).outcome = .ok d) :
    c.EditsAt ((Deed.batch actions).WritesAt f c) d := by
  obtain ⟨nexts, branched, replay⟩ := outcome_runBatch_eq_ok.mp h
  refine Context.EditsAt.refl.applyChanges replay ?_
  intro p v written
  obtain ⟨next, hn, written⟩ := List.mem_flatMap.mp written
  obtain ⟨a, ha, notices, ran⟩ := branched.of_mem hn
  exact ⟨a, ha, next, notices, v, ran, written⟩

/-! ## §3 Actions in rounds -/

/-- Of the actions, run in order from the first context on, this one is carried out on the second
context. -/
inductive ActsOn (f : Frame) : List Action → Context → Context → Action → Prop
  | here {a : Action} {rest : List Action} {c : Context} : ActsOn f (a :: rest) c c a
  | later {a b : Action} {rest : List Action} {c d e : Context} {notices : List Notice}
      (ran : (f.runAction a c).outcome = .ok (d, notices)) (further : ActsOn f rest d e b) :
      ActsOn f (a :: rest) c e b

/-- Prepares each element in turn, and runs its actions. -/
def rounds {α : Type} (f : Frame) (prepare : α → Context → Run Context)
    (actions : α → List Action) : List α → Context → Run Context
  | [], c => pure c
  | x :: rest, c => do
      let c ← prepare x c
      let c ← f.runActions (actions x) c
      f.rounds prepare actions rest c

/-- In one of the rounds, begun in the session, the action is carried out on the second context. -/
inductive RoundActs {α : Type} (f : Frame) (prepare : α → Context → Run Context)
    (actions : α → List Action) : List α → Context → Session → Context → Action → Prop
  | here {x : α} {rest : List α} {c d e : Context} {s t : Session} {a : Action}
      (prepared : prepare x c s = (.ok d, t)) (acts : f.ActsOn (actions x) d e a) :
      RoundActs f prepare actions (x :: rest) c s e a
  | later {x : α} {rest : List α} {c d m e : Context} {s t u : Session} {a : Action}
      (prepared : prepare x c s = (.ok d, t))
      (ran : Run.traced (f.runActions (actions x) d) t = (.ok m, u))
      (further : RoundActs f prepare actions rest m u e a) :
      RoundActs f prepare actions (x :: rest) c s e a

/-- Rolls for one item, which is then at hand with its roll. -/
def rollForItem (step : Step) (expression item : Value) (c : Context) : Run Context := do
  let c ← c.put s!"{step.place}.item" item
  let c ← c.put "item" item
  let roll ← c.rollDice expression
  let c ← c.put s!"{step.place}.result" roll.summary
  c.put "result" roll.summary

theorem rollForItems_eq (f : Frame) (step : Step) (expression : Value) (actions : List Action)
    (items : List Value) (c : Context) :
    f.rollForItems step expression actions items c
      = f.rounds (rollForItem step expression) (fun _ => actions) items c := by
  induction items generalizing c with
  | nil => rfl
  | cons item rest ih =>
    rw [rounds, ← funext ih, rollForItems, rollForItem]
    simp only [bind_assoc]

/-- Rolls on one table, whose result is then at hand. -/
def pickFrom (f : Frame) (step : Step) (target : TableTarget) (c : Context) : Run Context := do
  match presentId? target.table with
  | none => step.lacks "tables[].table"
  | some id =>
      let t ← Traced.ofExcept (f.table id)
      if isBlankText t.roll then Run.fail (.noRoll id)
      else
        let roll ← c.rollDice (.text t.roll)
        let entry ← tableValue t roll.total
        let result : Value := .mapping [("entry", entry), ("roll_result", roll.summary)]
        let c ← c.put s!"{step.place}.result" result
        c.put "result" result

theorem rollOnTable_eq (f : Frame) (step : Step) (target : TableTarget) (c : Context) :
    f.rollOnTable step target c = (do
      let c ← f.pickFrom step target c
      f.runActions target.actions c) := by
  unfold rollOnTable pickFrom
  cases presentId? target.table with
  | none => rfl
  | some id =>
    simp only [bind_assoc]
    congr 1
    funext t
    split
    · rfl
    · simp only [bind_assoc]

theorem rollOnTables_eq (f : Frame) (step : Step) (targets : List TableTarget) (c : Context) :
    f.rollOnTables step targets c = f.rounds (f.pickFrom step) TableTarget.actions targets c := by
  induction targets generalizing c with
  | nil => rfl
  | cons target rest ih =>
    rw [rounds, ← funext ih, rollOnTables, rollOnTable_eq]
    simp only [bind_assoc]

/-! ## §4 Branches and outputs -/

/-- The actions of the first condition that holds. -/
def takenArm (step : Step) (c : Context) : Branch → Traced (List Action)
  | .last actions => pure actions
  | .test condition actions otherwise => do
      if ← branchHolds step c condition then pure actions else takenArm step c otherwise

/-- A branch runs the actions of the arm that is taken. -/
theorem takeBranch_eq (f : Frame) (step : Step) (c : Context) (branch : Branch) :
    f.takeBranch step c branch = takenArm step c branch >>= fun taken => f.runActions taken c := by
  induction branch with
  | last actions => rfl
  | test condition actions otherwise ih =>
    rw [takeBranch, takenArm, bind_assoc]
    congr 1
    funext holds
    cases holds with
    | true => rfl
    | false => exact ih

theorem outcome_takeBranch {branch : Branch} (h : (f.takeBranch step c branch).outcome = .ok d) :
    ∃ actions, (takenArm step c branch).outcome = .ok actions
      ∧ (f.runActions actions c).outcome = .ok d := by
  rw [takeBranch_eq] at h
  exact outcome_bind_eq_ok.mp h

/-- Of the outputs that are stored in order from the first context on, one is stored at the path, in
the second context. -/
inductive StoresOn (f : Frame) (outputs : Fields) :
    Entries String → Context → Context → String → Prop
  | here {output path : String} {rest : Entries String} {c : Context} {v : Value}
      (there : Entries.get? outputs output = some v) :
      StoresOn f outputs ((output, path) :: rest) c c path
  | absent {output path other : String} {rest : Entries String} {c e : Context}
      (missing : Entries.get? outputs output = none)
      (further : StoresOn f outputs rest c e other) :
      StoresOn f outputs ((output, path) :: rest) c e other
  | later {output path other : String} {rest : Entries String} {c d e : Context} {v : Value}
      (there : Entries.get? outputs output = some v)
      (stored : (f.store c (trim path) v).outcome = .ok d)
      (further : StoresOn f outputs rest d e other) :
      StoresOn f outputs ((output, path) :: rest) c e other

/-! ## §5 Choices -/

/-- The player, asked on the context in the session, chooses one option: the first of those offered
that the next answer of the host names. -/
structure Chooses (f : Frame) (c : Context) (s : Session) (choices : List Value)
    (source : Option ChoiceSource) (selection : Value) (o : ChoiceOption) : Prop where
  single : ∀ x, source = some x → x.count ≤ 1
  answered : s.host.answers.map Script.next = some (.ok selection)
  found : ∃ shown, (f.offered choices source c).outcome = .ok shown
    ∧ findChoice selection.render shown = .ok (some o)

/-- The option that the player chooses goes on with the step of the id. -/
inductive Directs (f : Frame) (c : Context) (s : Session) : StepKind → String → Prop
  | option {choices : List Value} {source : Option ChoiceSource} {selection : Value}
      {o : ChoiceOption} {id : String} (chooses : f.Chooses c s choices source selection o)
      (next : o.nextStep = some id) (written : isBlankText id = false) :
      Directs f c s (.playerChoice choices source) id

/-- There is one option that the player chooses. -/
theorem Chooses.unique {choices : List Value} {source : Option ChoiceSource}
    {selection selection' : Value} {o o' : ChoiceOption}
    (h : f.Chooses c s choices source selection o)
    (k : f.Chooses c s choices source selection' o') : selection = selection' ∧ o = o' := by
  obtain ⟨shown, offered, found⟩ := h.found
  obtain ⟨shown', offered', found'⟩ := k.found
  cases h.answered.symm.trans k.answered
  rw [offered] at offered'
  cases offered'
  rw [found] at found'
  cases found'
  exact ⟨rfl, rfl⟩

theorem Directs.unique {kind : StepKind} {id other : String} (h : f.Directs c s kind id)
    (k : f.Directs c s kind other) : id = other := by
  cases h with
  | option chooses next written =>
    cases k with
    | option chooses' next' written' =>
      obtain ⟨rfl, rfl⟩ := chooses.unique chooses'
      rw [next] at next'
      exact Option.some.inj next'

/-- The host answers with what its script says next. -/
theorem answers_of_ask {shownStep : Step} {snapshot v : Value}
    (h : Run.ask shownStep snapshot s = (.ok v, t)) :
    s.host.answers.map Script.next = some (.ok v) := by
  obtain ⟨reply, u, taken, h⟩ := Run.bind_apply_eq_ok h
  cases installed : s.host.answers with
  | none =>
    rw [Run.nextReply_of_none installed] at taken
    cases taken
    cases h
  | some script =>
    rw [Run.nextReply_of_some installed] at taken
    cases taken
    change Option.some script.next = _
    generalize script.next = answer at h
    cases answer with
    | error message => cases h
    | ok w =>
      cases h
      rfl

theorem host_of_traced {α : Type} {x : Traced α} {outcome : Except Stop α}
    (h : Run.traced x s = (outcome, t)) : t.host = s.host := by
  rw [Run.traced_apply] at h
  cases h
  rfl

/-- A choice that succeeds is one of several options, or of one that the host has named. -/
theorem selects_of_playerChoice {choices : List Value} {source : Option ChoiceSource}
    (h : f.playerChoice step choices source c s = (.ok d, t)) :
    ∃ shown selection, (f.offered choices source c).outcome = .ok shown
      ∧ s.host.answers.map Script.next = some (.ok selection)
      ∧ ((∃ x, source = some x ∧ 1 < x.count
            ∧ (f.selectSeveral step source x.count selection c).outcome = .ok d) ∨
          (∀ x, source = some x → x.count ≤ 1)
            ∧ (f.selectOne step source shown selection c).outcome = .ok d) := by
  unfold playerChoice at h
  obtain ⟨attended, s₁, asked, h⟩ := Run.bind_apply_eq_ok h
  cases asked
  split at h
  · exact absurd ⟨_, _, h⟩ Run.not_gives_fail
  · obtain ⟨shown, s₂, offered, h⟩ := Run.bind_apply_eq_ok h
    obtain ⟨shownStep, s₃, presented, h⟩ := Run.bind_apply_eq_ok h
    obtain ⟨selection, s₄, asked, h⟩ := Run.bind_apply_eq_ok h
    have answers := answers_of_ask asked
    rw [host_of_traced presented, host_of_traced offered] at answers
    refine ⟨shown, selection, Run.gives_lift ⟨_, _, offered⟩, answers, ?_⟩
    cases source with
    | none => exact Or.inr ⟨fun _ absent => (by cases absent), Run.gives_lift ⟨_, _, h⟩⟩
    | some x =>
      by_cases several : 1 < x.count
      · simp only [if_pos several] at h
        exact Or.inl ⟨x, rfl, several, Run.gives_lift ⟨_, _, h⟩⟩
      · simp only [if_neg several] at h
        refine Or.inr ⟨?_, Run.gives_lift ⟨_, _, h⟩⟩
        rintro y same
        cases same
        exact Nat.le_of_not_lt several

/-! ## §6 What bodies do -/

/-- The body of the step, begun on the first context in the session, does the deed on the second
one. -/
inductive Does (f : Frame) (caller : Caller) (step : Step) (c : Context) (s : Session) :
    StepKind → Context → Deed → Prop
  /-- An action for one of the items of a sequence. -/
  | item {sequence : DiceSequence} {items : List Value} {expression : Value} {t : Session}
      {e : Context} {a : Action}
      (listed : Run.traced (sequenceItems c sequence.items) s = (.ok (.list items), t))
      (rolls : presentSetting? sequence.roll = some expression)
      (acts : f.RoundActs (rollForItem step expression) (fun _ => sequence.actions) items c t e a) :
      Does f caller step c s (.diceSequence (some sequence)) e (.act a)
  /-- An action for one of the tables. -/
  | picked {targets : List TableTarget} {e : Context} {a : Action}
      (acts : f.RoundActs (f.pickFrom step) TableTarget.actions targets c s e a) :
      Does f caller step c s (.tableRoll targets) e (.act a)
  /-- An action of the option that the player has chosen. -/
  | chosen {choices : List Value} {source : Option ChoiceSource} {selection v : Value}
      {o : ChoiceOption} {m n e : Context} {a : Action}
      (chooses : f.Chooses c s choices source selection o)
      (stands : f.selected source selection = .ok v)
      (kept : (c.put s!"{step.place}.result" v).outcome = .ok m)
      (named : (m.put "result" v).outcome = .ok n) (acts : f.ActsOn o.actions n e a) :
      Does f caller step c s (.playerChoice choices source) e (.act a)
  /-- An output of the flow that is called is stored. -/
  | returned {call : FlowCall} {sub : SubCall} {outputs : Fields} {t u : Session}
      {m n e : Context} {path : String} (entered : f.enter step call c s = (.ok sub, t))
      (ran : caller sub.flow sub.inputs t = (.ok outputs, u))
      (recorded : (sub.context.put s!"{sub.place}.outputs" (.mapping outputs)).outcome = .ok m)
      (kept : (m.put s!"{step.place}.result" (.mapping outputs)).outcome = .ok n)
      (stores : f.StoresOn outputs call.outputs n e path) :
      Does f caller step c s (.flowCall call) e (.keep path)
  /-- An action of the arm that is taken. -/
  | arm {branch : Branch} {actions : List Action} {e : Context} {a : Action}
      (taken : (takenArm step c branch).outcome = .ok actions) (acts : f.ActsOn actions c e a) :
      Does f caller step c s (.conditionalBranch branch) e (.act a)
  /-- An action after the branch. -/
  | after {branch : Branch} {d e : Context} {a : Action}
      (taken : (f.takeBranch step c branch).outcome = .ok d) (acts : f.ActsOn step.actions d e a) :
      Does f caller step c s (.conditionalBranch branch) e (.act a)
  /-- An action of the step, whose results are at hand. -/
  | own {kind : StepKind} {d m n e : Context} {t : Session} {a : Action}
      (whole : ∀ branch, kind ≠ .conditionalBranch branch)
      (performed : f.perform caller step c kind s = (.ok d, t))
      (result : (exposeResult step "result" d).outcome = .ok m)
      (item : (exposeResult step "item" m).outcome = .ok n) (inOrder : step.parallel = false)
      (acts : f.ActsOn step.actions n e a) : Does f caller step c s kind e (.act a)
  | together {kind : StepKind} {d m n : Context} {t : Session}
      (whole : ∀ branch, kind ≠ .conditionalBranch branch)
      (performed : f.perform caller step c kind s = (.ok d, t))
      (result : (exposeResult step "result" d).outcome = .ok m)
      (item : (exposeResult step "item" m).outcome = .ok n) (parallel : step.parallel = true) :
      Does f caller step c s kind n (.batch step.actions)

/-! ## §7 What is authored -/

theorem ActsOn.mem {actions : List Action} {a : Action} (h : f.ActsOn actions c e a) :
    a ∈ actions := by
  induction h with
  | here => exact List.mem_cons_self
  | later _ _ ih => exact List.mem_cons_of_mem _ ih

theorem RoundActs.mem {α : Type} {prepare : α → Context → Run Context}
    {actions : α → List Action} {xs : List α} {a : Action}
    (h : f.RoundActs prepare actions xs c s e a) : a ∈ xs.flatMap actions := by
  induction h with
  | here _ acts => exact List.mem_flatMap.mpr ⟨_, List.mem_cons_self, acts.mem⟩
  | later _ _ _ ih => exact List.mem_append_right _ ih

theorem mem_of_takenArm {branch : Branch} {actions : List Action}
    (h : (takenArm step c branch).outcome = .ok actions) : ∀ a ∈ actions, a ∈ branch.actions := by
  induction branch with
  | last arm =>
    cases h
    exact fun a ha => ha
  | test condition arm otherwise ih =>
    obtain ⟨holds, _, h⟩ := outcome_bind_eq_ok.mp h
    cases holds with
    | true =>
      cases h
      exact fun a ha => List.mem_append_left _ ha
    | false => exact fun a ha => List.mem_append_right _ (ih h a ha)

theorem StoresOn.mem {outputs : Fields} {paths : Entries String} {path : String}
    (h : f.StoresOn outputs paths c e path) : path ∈ paths.map (·.2) := by
  induction h with
  | here => exact List.mem_cons_self
  | absent _ _ ih => exact List.mem_cons_of_mem _ ih
  | later _ _ _ ih => exact List.mem_cons_of_mem _ ih

/-- The actions of the option that is chosen are authored: options made for the player have none. -/
theorem Chooses.mem {choices : List Value} {source : Option ChoiceSource} {selection : Value}
    {o : ChoiceOption} (h : f.Chooses c s choices source selection o) :
    ∀ a ∈ o.actions, a ∈ choices.flatMap choiceActions := by
  obtain ⟨shown, offered, found⟩ := h.found
  obtain ⟨choice, there, option⟩ := mem_of_findChoice found
  intro a ha
  refine choiceActions_offered offered choice there a ?_
  unfold choiceActions
  rw [option]
  exact ha

/-- What a body does is authored. -/
theorem Does.isOf {kind : StepKind} {deed : Deed} (h : f.Does caller step c s kind e deed) :
    deed.IsOf step kind := by
  cases h with
  | item listed rolls acts =>
    obtain ⟨item, _, authored⟩ := List.mem_flatMap.mp acts.mem
    exact Or.inr authored
  | picked acts => exact Or.inr acts.mem
  | chosen chooses stands kept named acts => exact Or.inr (chooses.mem _ acts.mem)
  | returned entered ran recorded kept stores => exact ⟨_, rfl, stores.mem⟩
  | arm taken acts => exact Or.inr (mem_of_takenArm taken _ acts.mem)
  | after taken acts => exact Or.inl acts.mem
  | own whole performed result item inOrder acts => exact Or.inl acts.mem
  | together => rfl

end Frame

end Tabletop
