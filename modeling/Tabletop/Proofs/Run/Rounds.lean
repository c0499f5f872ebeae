/-
Tabletop.Proofs.Run.Rounds — the rounds of a sequence of rolls.

A sequence goes through its items in rounds. A round puts its item at hand,
resolves the roll there and asks for the dice; then it puts the roll at hand
and runs the actions. The next round goes on from the context that they
leave, whatever they have written, and puts its own item at hand again. So
the dice are asked once for each item until something fails, and what they
are asked can be told from the rounds alone, since contexts and actions ask
nothing of the host (`InRounds`). A body that is attempted again makes its
rounds anew, from the first item on.

  §1 Values at hand
  §2 Rounds
  §3 Items, round by round
  §4 Sequences
  §5 Bodies and their attempts
-/
import Mathlib.Data.List.Chain
import Tabletop.Proofs.Context.Local
import Tabletop.Proofs.Run.Asked
import Tabletop.Proofs.Run.Effect

namespace Tabletop

/-! ## §1 Values at hand -/

/-- In the second context the value is at hand under the name: it has been written to the place
where it is kept and to the alias of the name. Else the contexts read the same. -/
structure AtHand (place name : String) (v : Value) (c d : Context) : Prop where
  written : ∃ kept, c.set place v = .ok kept ∧ kept.set name v = .ok d
  aliased : Entries.get? d.aliases name = some v
  elsewhere : ∀ path, (Path.split place).Diverges (Path.split path) →
    Path.Diverges [name] (Path.split path) → d.get path = c.get path

/-- Puts a value at hand. -/
def Context.putAtHand (place name : String) (v : Value) (c : Context) : Traced Context := do
  let c ← c.put place v
  c.put name v

theorem Context.asksNothing_putAtHand (place name : String) (v : Value) (c : Context) :
    (c.putAtHand place name v).AsksNothing :=
  (asksNothing_put c place v).bind fun d => asksNothing_put d name v

theorem atHand_of_putAtHand {place name : String} {v : Value} {c d : Context}
    (named : Path.split name = [name]) (h : (c.putAtHand place name v).outcome = .ok d) :
    AtHand place name v c d := by
  obtain ⟨kept, first, second⟩ := Traced.outcome_bind_eq_ok.mp h
  have kept_there : c.write .plain v (Path.split place) = .ok kept :=
    Context.outcome_writeTraced_eq_ok.mp first
  have aliased : kept.write .plain v (Path.split name) = .ok d :=
    Context.outcome_writeTraced_eq_ok.mp second
  refine ⟨⟨kept, kept_there, aliased⟩, ?_, fun path apart other => ?_⟩
  · rw [named] at aliased
    cases free : kept.isReserved name with
    | true =>
      simp only [Context.write, free, if_true] at aliased
      cases aliased
    | false =>
      rw [Context.write_alias free] at aliased
      cases aliased
      simp
  · have last : d.get path = kept.get path :=
      Context.lookup_write_of_diverges aliased (named ▸ other)
    exact last.trans (Context.lookup_write_of_diverges kept_there apart)

/-! ## §2 Rounds -/

/-- A round of a sequence, up to its roll. -/
structure Round where
  item : Value
  /-- Where the round begins: what the rounds before have left. -/
  start : Context
  begun : Session
  /-- Where the roll is resolved. -/
  bound : Context
  /-- What is rolled. -/
  text : String
  asked : Session
  /-- What comes of it. -/
  outcome : Except Stop Roll
  left : Session

namespace Round

/-- The round rolls what the template gives where its item is at hand; nothing is asked of the host
before. -/
structure Rolls (step : Step) (expression : Value) (r : Round) : Prop where
  atHand : AtHand s!"{step.place}.item" "item" r.item r.start r.bound
  resolved : ∃ text, (r.bound.resolveText expression).outcome = .ok text ∧ r.text = trim text
  silent : r.begun.Silent r.asked
  rolled : Run.roll r.text r.asked = (r.outcome, r.left)

/-- The round ends with its actions, in a context and a session: they run where its roll is at hand
as the result, and nothing is asked of the host between the roll and them. -/
def Acts (f : Frame) (step : Step) (actions : List Action) (r : Round) (d : Context)
    (u : Session) : Prop :=
  ∃ roll found m, r.outcome = .ok roll ∧
    AtHand s!"{step.place}.result" "result" roll.summary r.bound found ∧ r.left.Silent m ∧
    Run.traced (f.runActions actions found) m = (.ok d, u)

end Round

namespace Frame

variable {f : Frame} {step : Step} {expression : Value} {actions : List Action}

/-- Puts an item at hand, and resolves what is rolled there. -/
def aim (step : Step) (expression item : Value) (c : Context) : Traced (Context × String) := do
  let c ← c.putAtHand s!"{step.place}.item" "item" item
  let text ← c.resolveText expression
  pure (c, trim text)

/-- Puts a roll at hand, and runs the actions there. -/
def act (f : Frame) (step : Step) (actions : List Action) (roll : Roll) (c : Context) :
    Traced Context := do
  let c ← c.putAtHand s!"{step.place}.result" "result" roll.summary
  f.runActions actions c

theorem asksNothing_aim (step : Step) (expression item : Value) (c : Context) :
    (aim step expression item c).AsksNothing := by
  refine (c.asksNothing_putAtHand _ _ _).bind fun d => ?_
  exact (d.asksNothing_resolveText expression).bind fun _ => Traced.asksNothing_ofExcept _

theorem asksNothing_act (f : Frame) (step : Step) (actions : List Action) (roll : Roll)
    (c : Context) : (f.act step actions roll c).AsksNothing :=
  (c.asksNothing_putAtHand _ _ _).bind fun d => f.asksNothing_runActions actions d

/-- A sequence aims, rolls and acts for its first item, and goes on with the others. -/
theorem rollForItems_cons (f : Frame) (step : Step) (expression : Value) (actions : List Action)
    (item : Value) (rest : List Value) (c : Context) :
    f.rollForItems step expression actions (item :: rest) c = (do
      let target ← Run.traced (aim step expression item c)
      let roll ← Run.roll target.2
      let d ← Run.traced (f.act step actions roll target.1)
      f.rollForItems step expression actions rest d) := by
  have put_down : ∀ p : Context × String, Run.traced (pure p) = pure p := fun _ => rfl
  rw [rollForItems]
  unfold aim act Context.putAtHand Context.rollDice
  simp only [Run.traced_bind, bind_assoc, put_down, pure_bind]
  rfl

/-! ## §3 Items, round by round -/

/-- The items from a context and a session on, with the rounds that get as far as their roll and
what comes of it all. -/
inductive Rolled (f : Frame) (step : Step) (expression : Value) (actions : List Action) :
    List Value → Context → Session → List Round → Except Stop Context × Session → Prop
  | done (c : Context) (s : Session) : Rolled f step expression actions [] c s [] (.ok c, s)
  /-- The item cannot be put at hand, or its roll cannot be resolved. -/
  | unaimed {item : Value} {rest : List Value} {c : Context} {s t : Session} {stop : Stop}
      (aimed : Run.traced (aim step expression item c) s = (.error stop, t)) :
      Rolled f step expression actions (item :: rest) c s [] (.error stop, t)
  /-- The dice fail. -/
  | missed {r : Round} {rest : List Value} {stop : Stop} (rolls : r.Rolls step expression)
      (failed : r.outcome = .error stop) :
      Rolled f step expression actions (r.item :: rest) r.start r.begun [r] (.error stop, r.left)
  /-- The roll cannot be put at hand, or one of the actions fails. -/
  | halted {r : Round} {rest : List Value} {roll : Roll} {t : Session} {stop : Stop}
      (rolls : r.Rolls step expression) (hit : r.outcome = .ok roll)
      (acted : Run.traced (f.act step actions roll r.bound) r.left = (.error stop, t)) :
      Rolled f step expression actions (r.item :: rest) r.start r.begun [r] (.error stop, t)
  | next {r : Round} {rest : List Value} {d : Context} {u : Session} {rounds : List Round}
      {result : Except Stop Context × Session} (rolls : r.Rolls step expression)
      (acts : r.Acts f step actions d u)
      (later : Rolled f step expression actions rest d u rounds result) :
      Rolled f step expression actions (r.item :: rest) r.start r.begun (r :: rounds) result

/-- What has been aimed at is rolled. -/
theorem rolls_of_aim {item : Value} {c bound : Context} {text : String} {s t : Session}
    (aimed : Run.traced (aim step expression item c) s = (.ok (bound, text), t)) :
    Round.Rolls step expression
      ⟨item, c, s, bound, text, t, (Run.roll text t).1, (Run.roll text t).2⟩ := by
  have outcome : (aim step expression item c).outcome = .ok (bound, text) :=
    Run.gives_traced ⟨s, t, aimed⟩
  obtain ⟨d, put, later⟩ := Traced.outcome_bind_eq_ok.mp outcome
  obtain ⟨whole, resolved, same⟩ := Traced.outcome_bind_eq_ok.mp later
  cases same
  exact ⟨atHand_of_putAtHand (by rfl) put, ⟨whole, resolved, rfl⟩,
    (asksNothing_aim step expression item c).silent_of_ran aimed, rfl⟩

/-- What has been done after a roll are the actions, with the roll at hand. -/
theorem acts_of_act {r : Round} {roll : Roll} {d : Context} {u : Session}
    (hit : r.outcome = .ok roll)
    (acted : Run.traced (f.act step actions roll r.bound) r.left = (.ok d, u)) :
    r.Acts f step actions d u := by
  unfold act at acted
  rw [Run.traced_bind] at acted
  obtain ⟨found, m, put, ran⟩ := Run.bind_apply_eq_ok acted
  have silent := (r.bound.asksNothing_putAtHand _ _ _).silent_of_ran put
  exact ⟨roll, found, m, hit, atHand_of_putAtHand (by rfl) (Run.gives_traced ⟨_, _, put⟩), silent,
    ran⟩

/-- Every run through items goes so. -/
theorem exists_rolled (f : Frame) (step : Step) (expression : Value) (actions : List Action)
    (items : List Value) (c : Context) (s : Session) :
    ∃ rounds, f.Rolled step expression actions items c s rounds
      (f.rollForItems step expression actions items c s) := by
  -- for every context and session, since a round leaves any of them to the next one
  induction items generalizing c s with
  | nil => exact ⟨[], .done c s⟩
  | cons item rest ih =>
    rw [rollForItems_cons]
    cases aimed : Run.traced (aim step expression item c) s with
    | mk outcome asked =>
      cases outcome with
      | error stop =>
        rw [Run.bind_of_error aimed]
        exact ⟨[], .unaimed aimed⟩
      | ok target =>
        obtain ⟨bound, text⟩ := target
        have rolls := rolls_of_aim aimed
        rw [Run.bind_of_ok aimed]
        cases rolled : Run.roll text asked with
        | mk outcome left =>
          rw [rolled] at rolls
          cases outcome with
          | error stop =>
            rw [Run.bind_of_error rolled]
            exact ⟨[_], .missed rolls rfl⟩
          | ok roll =>
            rw [Run.bind_of_ok rolled]
            cases acted : Run.traced (f.act step actions roll bound) left with
            | mk outcome u =>
              cases outcome with
              | error stop =>
                rw [Run.bind_of_error acted]
                exact ⟨[_], .halted rolls rfl acted⟩
              | ok d =>
                rw [Run.bind_of_ok acted]
                obtain ⟨rounds, later⟩ := ih d u
                exact ⟨_, .next rolls (acts_of_act rfl acted) later⟩

/-- The dice are asked for the expression, if there are any, and stay. -/
theorem rolls_roll {text : String} {s t : Session} {outcome : Except Stop Roll}
    (installed : s.host.dice.isSome = true) (ran : Run.roll text s = (outcome, t)) :
    t.rolls = s.rolls ++ [text] ∧ t.host.dice.isSome = true := by
  obtain ⟨script, there⟩ := Option.isSome_iff_exists.mp installed
  unfold Run.roll at ran
  rw [Run.bind_apply, Run.nextReply_of_some there] at ran
  cases given : script.next text
  all_goals
    simp only [given] at ran
    cases ran
    exact ⟨by simp [Session.rolls, Event.rolled?], rfl⟩

theorem isOk_roll_of_bare {s : Session} (bare : s.host.dice = none) (text : String) :
    (Run.roll text s).1.isOk = false := by
  unfold Run.roll
  rw [Run.bind_apply, Run.nextReply_of_none bare]
  rfl

namespace Rolled

variable {items : List Value} {c : Context} {s : Session} {rounds : List Round}
  {result : Except Stop Context × Session}

theorem items_prefix (h : f.Rolled step expression actions items c s rounds result) :
    rounds.map Round.item <+: items := by
  induction h with
  | done c s => exact List.prefix_refl _
  | unaimed aimed => exact List.nil_prefix
  | missed rolls failed => exact List.cons_prefix_cons.mpr ⟨rfl, List.nil_prefix⟩
  | halted rolls hit acted => exact List.cons_prefix_cons.mpr ⟨rfl, List.nil_prefix⟩
  | next rolls acts later ih => exact List.cons_prefix_cons.mpr ⟨rfl, ih⟩

theorem length_eq (h : f.Rolled step expression actions items c s rounds result)
    (ok : result.1.isOk = true) : rounds.length = items.length := by
  induction h with
  | done c s => rfl
  | unaimed aimed => cases ok
  | missed rolls failed => cases ok
  | halted rolls hit acted => cases ok
  | next rolls acts later ih => exact congrArg (· + 1) (ih ok)

/-- A round whose roll fails is the last one, and nothing comes after its roll. -/
theorem of_missed (h : f.Rolled step expression actions items c s rounds result) :
    ∀ i r stop, rounds[i]? = some r → r.outcome = .error stop →
      rounds.length = i + 1 ∧ result = (.error stop, r.left) := by
  have one_round : ∀ {only r : Round} {i : Nat}, [only][i]? = some r → i = 0 ∧ only = r := by
    intro only r i here
    cases i with
    | zero => exact ⟨rfl, Option.some.inj here⟩
    | succ i => cases here
  induction h with
  | done c s => exact fun _ _ _ none_there => nomatch none_there
  | unaimed aimed => exact fun _ _ _ none_there => nomatch none_there
  | missed rolls failed =>
    intro i r stop here miss
    obtain ⟨rfl, rfl⟩ := one_round here
    cases failed.symm.trans miss
    exact ⟨rfl, rfl⟩
  | halted rolls hit acted =>
    intro i r stop here miss
    obtain ⟨rfl, rfl⟩ := one_round here
    cases hit.symm.trans miss
  | next rolls acts later ih =>
    intro i r stop here miss
    cases i with
    | zero =>
      cases here
      obtain ⟨roll, _, _, hit, _⟩ := acts
      cases hit.symm.trans miss
    | succ i =>
      obtain ⟨length, stopped⟩ := ih i r stop here miss
      exact ⟨congrArg (· + 1) length, stopped⟩

theorem rolls (h : f.Rolled step expression actions items c s rounds result) :
    ∀ r ∈ rounds, r.Rolls step expression := by
  induction h with
  | done c s => exact fun r none_there => absurd none_there List.not_mem_nil
  | unaimed aimed => exact fun r none_there => absurd none_there List.not_mem_nil
  | missed rolls failed => exact List.forall_mem_singleton.mpr rolls
  | halted rolls hit acted => exact List.forall_mem_singleton.mpr rolls
  | next rolls acts later ih => exact List.forall_mem_cons.mpr ⟨rolls, ih⟩

theorem first (h : f.Rolled step expression actions items c s rounds result) :
    ∀ r, rounds.head? = some r → r.start = c ∧ r.begun = s := by
  cases h with
  | done => exact fun r none_there => nomatch none_there
  | unaimed aimed => exact fun r none_there => nomatch none_there
  | missed rolls failed =>
    rintro r ⟨⟩
    exact ⟨rfl, rfl⟩
  | halted rolls hit acted =>
    rintro r ⟨⟩
    exact ⟨rfl, rfl⟩
  | next rolls acts later =>
    rintro r ⟨⟩
    exact ⟨rfl, rfl⟩

/-- Each round begins where the actions of the one before have ended. -/
theorem chain (h : f.Rolled step expression actions items c s rounds result) :
    rounds.IsChain fun r after => r.Acts f step actions after.start after.begun := by
  induction h with
  | done c s => exact .nil
  | unaimed aimed => exact .nil
  | missed rolls failed => exact .singleton _
  | halted rolls hit acted => exact .singleton _
  | next rolls acts later ih =>
    refine List.isChain_cons.mpr ⟨fun after head => ?_, ih⟩
    obtain ⟨rfl, rfl⟩ := later.first after head
    exact acts

/-- If the last round has its roll, then what it does with it fails, and all stops there, or its
actions end well; and if all goes well, it ends where they do. -/
theorem last (h : f.Rolled step expression actions items c s rounds result) :
    ∀ r roll, rounds.getLast? = some r → r.outcome = .ok roll →
      result.1.isOk = false ∧ Run.traced (f.act step actions roll r.bound) r.left = result ∨
      ∃ d u, r.Acts f step actions d u ∧ (result.1.isOk = true → result = (.ok d, u)) := by
  induction h with
  | done c s => exact fun _ _ none_there => nomatch none_there
  | unaimed aimed => exact fun _ _ none_there => nomatch none_there
  | missed rolls failed =>
    rintro r roll ⟨⟩ hit
    cases failed.symm.trans hit
  | halted rolls hit acted =>
    rintro r roll ⟨⟩ hit'
    cases hit.symm.trans hit'
    exact Or.inl ⟨rfl, acted⟩
  | @next r rest d u rounds result rolls acts later ih =>
    intro r' roll last hit
    -- the round is the last one only if the next item has none
    cases later with
    | done c s =>
      cases last
      exact Or.inr ⟨d, u, acts, fun _ => rfl⟩
    | unaimed aimed =>
      cases last
      exact Or.inr ⟨d, u, acts, fun ok => Bool.noConfusion ok⟩
    | missed rolls' failed => exact ih r' roll last hit
    | halted rolls' hit' acted => exact ih r' roll last hit
    | next rolls' acts' later' => exact ih r' roll last hit

/-- The dice have been asked for what the rounds roll, and nothing else. -/
theorem calls (h : f.Rolled step expression actions items c s rounds result)
    (installed : s.host.dice.isSome = true) :
    result.2.rolls = s.rolls ++ rounds.map Round.text := by
  -- the dice do not go away, so the rounds behind find them too
  have rolled : ∀ {r : Round}, r.Rolls step expression → r.begun.host.dice.isSome = true →
      r.left.rolls = r.begun.rolls ++ [r.text] ∧ r.left.host.dice.isSome = true := by
    intro r rolls there
    obtain ⟨asked, stays⟩ := rolls_roll (rolls.silent.host ▸ there) rolls.rolled
    exact ⟨by rw [asked, rolls.silent.rolls], stays⟩
  induction h with
  | done c s => exact (List.append_nil _).symm
  | unaimed aimed =>
    rw [((asksNothing_aim _ _ _ _).silent_of_ran aimed).rolls]
    exact (List.append_nil _).symm
  | missed rolls failed => exact (rolled rolls installed).1
  | halted rolls hit acted =>
    rw [((asksNothing_act f _ _ _ _).silent_of_ran acted).rolls]
    exact (rolled rolls installed).1
  | next rolls acts later ih =>
    obtain ⟨asked, stays⟩ := rolled rolls installed
    obtain ⟨roll, found, m, _, _, silent, ran⟩ := acts
    have quiet := silent.trans ((f.asksNothing_runActions actions found).silent_of_ran ran)
    rw [ih (quiet.host ▸ stays), quiet.rolls, asked, List.map_cons, List.append_assoc]
    rfl

/-- Where there are no dice, no round gets its roll. -/
theorem bare (h : f.Rolled step expression actions items c s rounds result)
    (without : s.host.dice = none) : ∀ r ∈ rounds, r.outcome.isOk = false := by
  have misses : ∀ {r : Round}, r.Rolls step expression → r.begun.host.dice = none →
      r.outcome.isOk = false := by
    intro r rolls without
    have fails := isOk_roll_of_bare (rolls.silent.host ▸ without) r.text
    rwa [rolls.rolled] at fails
  cases h with
  | done => exact fun r none_there => absurd none_there List.not_mem_nil
  | unaimed aimed => exact fun r none_there => absurd none_there List.not_mem_nil
  | missed rolls failed => exact List.forall_mem_singleton.mpr (misses rolls without)
  | halted rolls hit acted =>
    have fails := misses rolls without
    rw [hit] at fails
    cases fails
  | next rolls acts later =>
    have fails := misses rolls without
    obtain ⟨roll, _, _, hit, _⟩ := acts
    rw [hit] at fails
    cases fails

end Rolled

/-! ## §4 Sequences -/

/-- Rounds in which a sequence asks for its rolls, from a context and a session to a result. -/
structure InRounds (f : Frame) (step : Step) (sequence : DiceSequence) (items : List Value)
    (c : Context) (s : Session) (rounds : List Round)
    (result : Except Stop Context × Session) : Prop where
  /-- The items are gone through round by round, unless there are none, or nothing to roll. -/
  through : (items = [] ∨ presentSetting? sequence.roll = none) ∧ rounds = [] ∨
    ∃ expression, presentSetting? sequence.roll = some expression ∧
      f.Rolled step expression sequence.actions items c s rounds result
  /-- There is at most one round for each item, in the order of the items. -/
  order : rounds.map Round.item <+: items
  /-- Dice that there are have been asked for what the rounds roll, and for nothing else. -/
  calls : s.host.dice.isSome = true → result.2.rolls = s.rolls ++ rounds.map Round.text
  /-- Where there are none, no round gets its roll. -/
  bare : s.host.dice = none → ∀ r ∈ rounds, r.outcome.isOk = false
  /-- If all goes well, there is a round for every item. -/
  complete : result.1.isOk = true → rounds.length = items.length
  /-- If the roll of a round fails, it is the last round, and all stops there. -/
  missed : ∀ i r stop, rounds[i]? = some r → r.outcome = .error stop →
    rounds.length = i + 1 ∧ result = (.error stop, r.left)
  /-- Each round rolls what the template gives where its item is at hand. -/
  rolls : ∀ r ∈ rounds, ∃ expression, presentSetting? sequence.roll = some expression ∧
    r.Rolls step expression
  /-- The first round begins where the sequence does. -/
  first : ∀ r, rounds.head? = some r → r.start = c ∧ r.begun = s
  /-- Every other one begins where the actions of the one before it have ended. -/
  next : rounds.IsChain fun r after => r.Acts f step sequence.actions after.start after.begun
  /-- If the last round has its roll, then what it does with it fails, and all stops there, or its
  actions end well; and if all goes well, the sequence ends where they do. -/
  last : ∀ r roll, rounds.getLast? = some r → r.outcome = .ok roll →
    result.1.isOk = false ∧ Run.traced (f.act step sequence.actions roll r.bound) r.left = result ∨
    ∃ d u, r.Acts f step sequence.actions d u ∧ (result.1.isOk = true → result = (.ok d, u))

variable {sequence : DiceSequence} {items : List Value} {c : Context} {s : Session}

/-- A sequence that lacks a setting has no rounds. -/
theorem inRounds_of_error (lacks : items = [] ∨ presentSetting? sequence.roll = none)
    (stop : Stop) : f.InRounds step sequence items c s [] (.error stop, s) where
  through := Or.inl ⟨lacks, rfl⟩
  order := List.nil_prefix
  calls _ := (List.append_nil _).symm
  bare _ _ none_there := absurd none_there List.not_mem_nil
  complete ok := Bool.noConfusion ok
  missed _ _ _ none_there := nomatch none_there
  rolls _ none_there := absurd none_there List.not_mem_nil
  first _ none_there := nomatch none_there
  next := .nil
  last _ _ none_there := nomatch none_there

theorem Rolled.inRounds {rounds : List Round} {result : Except Stop Context × Session}
    (h : f.Rolled step expression sequence.actions items c s rounds result)
    (given : presentSetting? sequence.roll = some expression) :
    f.InRounds step sequence items c s rounds result where
  through := Or.inr ⟨expression, given, h⟩
  order := h.items_prefix
  calls := h.calls
  bare := h.bare
  complete := h.length_eq
  missed := h.of_missed
  rolls r hr := ⟨expression, given, h.rolls r hr⟩
  first := h.first
  next := h.chain
  last := h.last

/-- Once its items are resolved, a sequence rolls for them, or lacks a setting. -/
theorem diceSequence_of_resolved (f : Frame) (step : Step)
    (resolved : (sequenceItems c sequence.items).outcome = .ok (.list items)) (s : Session) :
    ((items = [] ∨ presentSetting? sequence.roll = none) ∧
      ∃ stop, f.diceSequence step (some sequence) c s = (.error stop, s)) ∨
    ∃ expression, presentSetting? sequence.roll = some expression ∧
      f.diceSequence step (some sequence) c s
        = f.rollForItems step expression sequence.actions items c s := by
  have begun : Run.traced (sequenceItems c sequence.items) s = (.ok (.list items), s) := by
    have quiet : (sequenceItems c sequence.items).events = [] := by
      unfold sequenceItems
      split <;> rfl
    rw [Run.traced_of_outcome resolved, quiet]
    rfl
  cases items with
  | nil => exact Or.inl ⟨Or.inl rfl, _, Run.bind_of_ok begun⟩
  | cons item rest =>
    cases given : presentSetting? sequence.roll with
    | none =>
      have lacks : f.diceSequence step (some sequence) c s = step.lacks "sequence.roll" s := by
        refine (Run.bind_of_ok begun).trans ?_
        simp only [given]
      exact Or.inl ⟨Or.inr rfl, _, lacks⟩
    | some expression =>
      refine Or.inr ⟨expression, rfl, (Run.bind_of_ok begun).trans ?_⟩
      simp only [given]

/-- Once its items are resolved, a sequence asks for its rolls in turn. -/
theorem exists_inRounds (f : Frame) (step : Step)
    (resolved : (sequenceItems c sequence.items).outcome = .ok (.list items)) (s : Session) :
    ∃ rounds, f.InRounds step sequence items c s rounds
      (f.diceSequence step (some sequence) c s) := by
  rcases f.diceSequence_of_resolved step resolved s with
    ⟨lacks, stop, refused⟩ | ⟨_, given, ran⟩
  · rw [refused]
    exact ⟨[], inRounds_of_error lacks stop⟩
  · rw [ran]
    obtain ⟨rounds, rolled⟩ := f.exists_rolled step _ sequence.actions items c s
    exact ⟨rounds, rolled.inRounds given⟩

/-! ## §5 Bodies and their attempts -/

/-- Exposes what the step keeps, and runs the actions of the step. -/
def conclude (f : Frame) (step : Step) (c : Context) : Traced Context := do
  let c ← exposeResult step "result" c
  let c ← exposeResult step "item" c
  f.stepActions step c

theorem asksNothing_conclude (f : Frame) (step : Step) (c : Context) :
    (f.conclude step c).AsksNothing := by
  refine (asksNothing_exposeResult step _ c).bind fun d => ?_
  exact (asksNothing_exposeResult step _ d).bind fun e => f.asksNothing_stepActions step e

/-- A body goes on from what it has come to: it stops if that has stopped, and otherwise concludes,
and asks nothing more of the host. -/
inductive Concluded (f : Frame) (step : Step) :
    Except Stop Context × Session → Except Stop Context × Session → Prop
  | stopped (stop : Stop) (t : Session) : Concluded f step (.error stop, t) (.error stop, t)
  | went {d : Context} {t : Session} {result : Except Stop Context × Session}
      (ran : Run.traced (f.conclude step d) t = result) (silent : t.Silent result.2) :
      Concluded f step (.ok d, t) result

/-- The body of a sequence makes its rolls and concludes. -/
theorem concluded_stepBody (f : Frame) (caller : Caller) (step : Step)
    (sequence : DiceSequence) (c : Context) (s : Session) :
    f.Concluded step (f.diceSequence step (some sequence) c s)
      (f.stepBody caller step (.diceSequence (some sequence)) c s) := by
  have body : f.stepBody caller step (.diceSequence (some sequence)) c = (do
      let d ← f.diceSequence step (some sequence) c
      Run.traced (f.conclude step d)) := by
    unfold stepBody perform conclude
    simp only [Run.traced_bind]
    rfl
  rw [body]
  cases ran : f.diceSequence step (some sequence) c s with
  | mk outcome t =>
    cases outcome with
    | error stop =>
      rw [Run.bind_of_error ran]
      exact .stopped stop t
    | ok d =>
      rw [Run.bind_of_ok ran]
      exact .went rfl ((f.asksNothing_conclude step d).silent_traced t)

/-- The rolls of a sequence are asked for in turn, from a context and a session on, and lead a body
to a result. -/
def PlaysInTurn (f : Frame) (step : Step) (sequence : DiceSequence) (items : List Value)
    (c : Context) (s : Session) (result : Except Stop Context × Session) : Prop :=
  (∃ rounds, f.InRounds step sequence items c s rounds
    (f.diceSequence step (some sequence) c s)) ∧
  f.Concluded step (f.diceSequence step (some sequence) c s) result

/-- Once its items are resolved, the body of a sequence asks for its rolls in turn, whatever its
actions write. So do all attempts that a visit makes at it, and each of them begins with the context
that the visit has come to the body with: nothing is left of what an attempt before has written. -/
theorem sequence_rolls_in_turn (f : Frame) (caller : Caller) (step : Step)
    (sequence : DiceSequence) :
    let body := f.stepBody caller step (.diceSequence (some sequence))
    (∀ c s items, (sequenceItems c sequence.items).outcome = .ok (.list items) →
      f.PlaysInTurn step sequence items c s (body c s)) ∧
    ∀ c s d items, (f.prepare step c).outcome = .ok (.ready (.diceSequence (some sequence)) d) →
      (sequenceItems d sequence.items).outcome = .ok (.list items) →
      let made := f.attemptsAt caller step c s
      (∃ outcome t, Tried (f.taskOf step) (body d) (attemptLimit f.engine.attempts)
          (s.reported (f.prepare step c).events) made (outcome, t) ∧
        f.visit caller step c s = (outcome.map (completed step), t)) ∧
      ∀ a ∈ made, f.PlaysInTurn step sequence items d a.before (a.outcome, a.after) := by
  intro body
  have in_turn : ∀ c s items, (sequenceItems c sequence.items).outcome = .ok (.list items) →
      f.PlaysInTurn step sequence items c s (body c s) := fun c s _ resolved =>
    ⟨f.exists_inRounds step resolved s, f.concluded_stepBody caller step sequence c s⟩
  refine ⟨in_turn, fun c s d items ready resolved => ?_⟩
  intro made
  obtain ⟨listed, visited⟩ := visit_of_ready caller (Run.traced_of_outcome ready s)
  have tried := Run.tried_tries f.engine.attempts (f.taskOf step) (body d)
    (s.reported (f.prepare step c).events)
  rw [← listed] at tried
  refine ⟨⟨_, _, tried, visited⟩, fun a ha => ?_⟩
  have played := in_turn d a.before items resolved
  rwa [tried.ran a ha] at played

/-- What is rolled for a shot: as many dice as the item says, of a kind that is kept. -/
def shotRoll : Value := .text " \x7b\x7b item \x7d\x7d\x7b\x7b variables.die \x7d\x7d "

/-- Two shots. The actions of the first one change the dice for the second one, and put another item
at hand. -/
def volley : DiceSequence where
  items := .list [.text "1", .text "2"]
  roll := some shotRoll
  actions := [
    ⟨"set_value", .mapping [("path", .text "variables.die"), ("value", .text "d8")]⟩,
    ⟨"set_value", .mapping [("path", .text "item"), ("value", .text "9")]⟩]

/-- The step of the shots. -/
def volleyStep : Step where
  id := "volley"
  typeName := "dice_sequence"
  preActions := [⟨"set_value", .mapping [("path", .text "variables.die"), ("value", .text "d6")]⟩]
  settings := [("sequence", .mapping [
    ("items", volley.items),
    ("roll", shotRoll),
    ("actions", .list [
      .mapping [("set_value", .mapping [("path", .text "variables.die"), ("value", .text "d8")])],
      .mapping [("set_value", .mapping [("path", .text "item"), ("value", .text "9")])]])])]

/-- Dice that show the same total, whatever is rolled. -/
def showing (total : Int) : DiceRoller := fun text => .ok ⟨total, s!"{text} comes to {total}"⟩

/-- The dice jam at the second shot. When the shots are repeated, the first one has its own dice
again, which the actions before the step have laid out once. -/
theorem volley_is_repeated :
    let f : Frame := ⟨{ catalog := {}, attempts := 2 }, {}, 0⟩
    let jammed : DiceRoller := fun _ => .error "jammed"
    let s : Session :=
      { host := { dice := some ⟨[showing 3, jammed, showing 4, showing 5], jammed⟩ } }
    let shots : List Value := [.text "1", .text "2"]
    let made := f.attemptsAt noCaller volleyStep .empty s
    ∃ d, (f.prepare volleyStep .empty).outcome = .ok (.ready (.diceSequence (some volley)) d) ∧
      made.map (·.succeeded) = [false, true] ∧
      made.map (·.after.rolls) = [["1d6", "2d8"], ["1d6", "2d8", "1d6", "2d8"]] ∧
      (∀ a ∈ made, f.PlaysInTurn volleyStep volley shots d a.before (a.outcome, a.after)) ∧
      f.PlaysInTurn volleyStep volley shots d s
        (f.stepBody noCaller volleyStep (.diceSequence (some volley)) d s) := by
  intro f jammed s shots made
  let cleared := Context.empty.putSlot "steps" "volley" ⟨.mapping [], .plain⟩
  have admitted : (admission volleyStep .empty).outcome
      = .ok (.admitted (.diceSequence (some volley)) cleared) := by rfl
  have runs : (f.runActions volleyStep.preActions cleared).outcome.isOk = true := by decide +kernel
  obtain ⟨d, before⟩ : ∃ d, (f.runActions volleyStep.preActions cleared).outcome = .ok d := by
    cases ran : (f.runActions volleyStep.preActions cleared).outcome with
    | error failure =>
      rw [ran] at runs
      cases runs
    | ok d => exact ⟨d, rfl⟩
  have ready : (f.prepare volleyStep .empty).outcome
      = .ok (.ready (.diceSequence (some volley)) d) := by
    rw [prepare_of_admitted admitted, precede_of_ok before]
    rfl
  obtain ⟨bodies, visits⟩ := sequence_rolls_in_turn f noCaller volleyStep volley
  have resolved : (sequenceItems d volley.items).outcome = .ok (.list shots) := by rfl
  exact ⟨d, ready, by decide +kernel, by decide +kernel,
    (visits .empty s d shots ready resolved).2, bodies d s shots resolved⟩

end Frame

end Tabletop
