/-
Tabletop.Proofs.Run.Move — the moves that lead from context to context.

Whatever a flow does to its context is a chain of moves: plain writes,
values stored with conversion, inputs supplied, checks, batches, and the end
of the aliases. What is to hold of every context of a run needs to be shown
of one move only. The actions of a step leave their mark on the moves: only
`swap_values` writes plainly to where a flow declares something.

  §1 Moves
  §2 Chains of moves
  §3 Places that flows do not declare
  §4 The moves of actions
  §5 Moves on behalf of actions
-/
import Tabletop.Proofs.Run.Effect
import Tabletop.Proofs.Run.Gives
import Tabletop.Proofs.Value.Split
import Tabletop.Run.Engine

namespace Tabletop

/-! ## §1 Moves -/

/-- What can be done to a context at once. -/
inductive Move where
  /-- A value is written as it is. -/
  | write (path : String) (v : Value)
  /-- A value is written, converted to the type declared at the path. -/
  | store (path : String) (v : Value)
  /-- A value is stored for a declared input. -/
  | supply (field : FlowField) (v : Value)
  /-- An entry is marked as validated. -/
  | check (path : String)
  | batch (actions : List Action)
  /-- The aliases are dropped. -/
  | clear

/-- Moves in order, each with the context on which it is made. -/
abbrev Trail := List (Context × Move)

/-- The model that a value names. -/
def Value.modelName? (v : Value) : Option String := (v.field? "model").bind Value.asText?

namespace Frame

/-- The move makes the second context of the first. -/
inductive Makes (f : Frame) (c : Context) : Move → Context → Prop
  | write {path : String} {v : Value} {d : Context} (step : c.set path v = .ok d) :
      Makes f c (.write path v) d
  | store {path : String} {v w : Value} {state : SlotState} {d : Context}
      (coerced : f.flow.coerceFor f.engine.catalog f.engine.make path v = .ok (w, state))
      (step : c.setTagged path w state = .ok d) : Makes f c (.store path v) d
  | supply {field : FlowField} {v w : Value} {state : SlotState} {d : Context}
      (coerced : (f.coerceInput field v).outcome = .ok (w, state))
      (step : c.setTagged s!"inputs.{field.id}" w state = .ok d) : Makes f c (.supply field v) d
  | check {path model : String} {v : Value} {object : ModelObject} (found : c.get path = some v)
      (named : v.modelName? = some model)
      (made : f.engine.make.instantiate model v = .ok object) :
      Makes f c (.check path) (c.retag path (.validated model))
  | batch {actions : List Action} {nexts : List Context} {d : Context}
      (branched : f.Branched c actions nexts)
      (replay : c.applyChanges (c.changesOf nexts) = .ok d) : Makes f c (.batch actions) d
  | clear : Makes f c .clear c.clearAliases

/-! ## §2 Chains of moves -/

/-- A chain of moves leads from the first context to the second. -/
inductive Goes (f : Frame) : Context → Trail → Context → Prop
  | rest (c : Context) : Goes f c [] c
  | move {c d e : Context} {m : Move} {moves : Trail} (first : f.Makes c m d)
      (others : Goes f d moves e) : Goes f c ((c, m) :: moves) e

theorem Goes.append {f : Frame} {c d e : Context} {few more : Trail}
    (h : f.Goes c few d) (k : f.Goes d more e) : f.Goes c (few ++ more) e := by
  induction h with
  | rest => exact k
  | move first _ ih => exact .move first (ih k)

/-- A chain leads to each context on which it makes a move, and goes on from there. -/
theorem Goes.split {f : Frame} {c d e : Context} {m : Move} {few more : Trail}
    (h : f.Goes c (few ++ (d, m) :: more) e) : f.Goes c few d ∧ f.Goes d ((d, m) :: more) e := by
  induction few generalizing c with
  | nil =>
    cases h with
    | move first others => exact ⟨.rest _, .move first others⟩
  | cons x rest ih =>
    cases h with
    | move first others =>
      obtain ⟨before, after⟩ := ih others
      exact ⟨.move first before, after⟩

/-- What holds all along a chain holds at its start. -/
theorem Goes.start_of_all {f : Frame} {c d : Context} {moves : Trail}
    {P : Context → Prop} (h : f.Goes c moves d) (along : ∀ x ∈ moves, P x.1) (ended : P d) :
    P c := by
  cases h with
  | rest => exact ended
  | move _ _ => exact along _ List.mem_cons_self

/-- What every move of a kind preserves, a chain of such moves preserves. -/
theorem Goes.preserves {f : Frame} {c d : Context} {moves : Trail}
    {P : Context → Prop} {Q : Context → Move → Prop} (h : f.Goes c moves d)
    (kind : ∀ x ∈ moves, Q x.1 x.2) (start : P c)
    (move : ∀ c m d, Q c m → P c → f.Makes c m d → P d) : P d := by
  induction h with
  | rest => exact start
  | move first _ ih =>
    rw [List.forall_mem_cons] at kind
    exact ih kind.2 (move _ _ _ kind.1 start first)

/-- A move writes and tags, or it drops the aliases. -/
theorem Makes.edits_or_clear {f : Frame} {c d : Context} {m : Move} (h : f.Makes c m d) :
    c.Edits d ∨ d = c.clearAliases := by
  cases h with
  | write step => exact Or.inl (.set .refl step)
  | store _ step => exact Or.inl (.setTagged .refl step)
  | supply _ step => exact Or.inl (.setTagged .refl step)
  | check _ _ _ => exact Or.inl (.retag _ _ .refl)
  | batch _ replay => exact Or.inl (Context.edits_applyChanges replay)
  | clear => exact Or.inr rfl

/-! ## §3 Places that flows do not declare -/

/-- The path leads to no entry of a namespace in which flows declare something. -/
def Undeclared (path : String) : Prop :=
  ∀ space entry rest, Path.split path = space :: entry :: rest → space ∉ declaredNames

/-- A path whose first segment is a plain word leads where the word says. -/
theorem undeclared_of_root {root rest : List Char} {path : String}
    (plain : root.all Path.isPlain = true) (hne : root ≠ [])
    (other : String.ofList root ∉ declaredNames) (h : path.toList = root ++ '.' :: rest) :
    Undeclared path := by
  intro space entry more hs
  rw [Path.split_root plain hne h, List.cons.injEq] at hs
  rwa [hs.1] at other

/-- What is below the data of a step is no declared place. -/
theorem undeclared_step {path : String} (step : Step)
    (h : ∃ tail, path.toList = step.place.toList ++ tail) : Undeclared path := by
  obtain ⟨tail, h⟩ := h
  have root : path.toList = "steps".toList ++ '.' :: (step.id.toList ++ tail) := by
    rw [h]
    simp [Step.place, toString]
  exact undeclared_of_root (by decide) (by decide) (by decide) root

/-- What is below the data of sub-flows is no declared place. -/
theorem undeclared_subFlow {path : String}
    (h : ∃ tail, path.toList = "sub_flows.".toList ++ tail) : Undeclared path := by
  obtain ⟨tail, h⟩ := h
  have root : path.toList = "sub_flows".toList ++ '.' :: tail := by
    rw [h]
    rfl
  exact undeclared_of_root (by decide) (by decide) (by decide) root

/-- An alias is no declared place. -/
theorem undeclared_alias {path name : String} (h : Path.split path = [name]) :
    Undeclared path := by
  intro space entry rest hs
  rw [h] at hs
  cases hs

end Frame

/-! ## §4 The moves of actions -/

/-- The moves of a command on a context on which it succeeds. A swap writes twice, and a check of a
value that names no model does nothing. -/
def Command.moves (c : Context) : Command → Trail
  | .setValue path v =>
      match (c.resolvePath path).outcome, c.resolveValue v with
      | .ok path, .ok v => [(c, .store path v)]
      | _, _ => []
  | .swapValues first second =>
      match (c.resolvePath first).outcome, (c.resolvePath second).outcome with
      | .ok first, .ok second =>
          let v := (c.get second).getD .null
          let w := (c.get first).getD .null
          match c.set first v with
          | .ok d => [(c, .write first v), (d, .write second w)]
          | .error _ => []
      | _, _ => []
  | .validateValue path =>
      match (c.resolvePath path).outcome with
      | .ok path => if ((c.get path).bind Value.modelName?).isSome then [(c, .check path)] else []
      | .error _ => []
  | _ => []

/-- The moves of an action on a context on which it succeeds. -/
def Action.moves (a : Action) (c : Context) : Trail :=
  match Command.ofAction a with
  | .ok (some command) => command.moves c
  | _ => []

namespace Frame

open Traced

variable {f : Frame} {a : Action} {actions all : List Action} {c d : Context}

/-- The moves of actions in order. -/
def movesOf (f : Frame) : List Action → Context → Trail
  | [], _ => []
  | a :: rest, c =>
      a.moves c ++ match (f.runAction a c).outcome with
        | .ok (d, _) => f.movesOf rest d
        | .error _ => []

theorem goes_setValue {path : String} {v : Value}
    (h : (f.setValue c path v).outcome = .ok d) :
    f.Goes c ((Command.setValue path v).moves c) d := by
  obtain ⟨path', resolved, h⟩ := outcome_bind_eq_ok.mp h
  obtain ⟨v', value, h⟩ := outcome_bind_eq_ok.mp h
  obtain ⟨w, state, coerced, step⟩ := outcome_store_eq_ok.mp h
  simp only [Command.moves, resolved, outcome_resolved_eq_ok.mp value]
  exact .move (.store coerced step) (.rest d)

theorem goes_swap {first second : String} (h : (c.swap first second).outcome = .ok d) :
    f.Goes c ((Command.swapValues first second).moves c) d := by
  obtain ⟨first', resolved, h⟩ := outcome_bind_eq_ok.mp h
  obtain ⟨second', resolved', h⟩ := outcome_bind_eq_ok.mp h
  obtain ⟨m, one, other⟩ := outcome_bind_eq_ok.mp h
  have one : c.set first' _ = .ok m := Context.outcome_writeTraced_eq_ok.mp one
  simp only [Command.moves, resolved, resolved', one]
  exact .move (.write one) (.move (.write (Context.outcome_writeTraced_eq_ok.mp other)) (.rest d))

theorem goes_validateValue {path : String} (h : (f.validateValue c path).outcome = .ok d) :
    f.Goes c ((Command.validateValue path).moves c) d := by
  obtain ⟨path', resolved, h⟩ := outcome_bind_eq_ok.mp h
  simp only [Command.moves, resolved]
  cases found : c.get path' with
  | none =>
    simp only [found] at h
    cases h
  | some v =>
    simp only [found] at h
    change f.Goes c (if v.modelName?.isSome then [(c, .check path')] else []) d
    cases named : v.modelName? with
    | none =>
      simp only [show (v.field? "model").bind Value.asText? = none from named] at h
      cases h
      exact .rest c
    | some model =>
      simp only [show (v.field? "model").bind Value.asText? = some model from named] at h
      obtain ⟨object, made, h⟩ := outcome_bind_eq_ok.mp h
      cases h
      exact .move (.check found named (outcome_made_eq_ok.mp made)) (.rest _)

/-- A command that succeeds makes its moves. -/
theorem goes_carryOut {command : Command} {notice : Notice}
    (h : (f.carryOut a c command).outcome = .ok (d, notice)) : f.Goes c (command.moves c) d := by
  cases command with
  | setValue path v =>
    obtain ⟨m, done, h⟩ := outcome_bind_eq_ok.mp h
    cases h
    exact goes_setValue done
  | swapValues first second =>
    obtain ⟨m, done, h⟩ := outcome_bind_eq_ok.mp h
    cases h
    exact goes_swap done
  | validateValue path =>
    obtain ⟨m, done, h⟩ := outcome_bind_eq_ok.mp h
    cases h
    exact goes_validateValue done
  | logMessage message =>
    obtain ⟨_, _, h⟩ := outcome_bind_eq_ok.mp h
    obtain ⟨_, _, h⟩ := outcome_bind_eq_ok.mp h
    cases h
    exact .rest c
  | displayMessage message =>
    obtain ⟨_, _, h⟩ := outcome_bind_eq_ok.mp h
    cases h
    exact .rest c
  | logEvent typeName data =>
    obtain ⟨_, _, h⟩ := outcome_bind_eq_ok.mp h
    obtain ⟨_, _, h⟩ := outcome_bind_eq_ok.mp h
    obtain ⟨_, _, h⟩ := outcome_bind_eq_ok.mp h
    cases h
    exact .rest c
  | displayValue path =>
    obtain ⟨_, _, h⟩ := outcome_bind_eq_ok.mp h
    cases h
    exact .rest c

/-- An action that sets a value stores it. -/
theorem moves_of_sets {path : String} {notices : List Notice} (sets : a.Sets c path)
    (h : (f.runAction a c).outcome = .ok (d, notices)) : ∃ v, a.moves c = [(c, .store path v)] := by
  obtain ⟨written, v, read, resolved⟩ := sets
  unfold runAction at h
  obtain ⟨command, same, h⟩ := outcome_bind_eq_ok.mp h
  rw [outcome_ofExcept, read] at same
  cases same
  obtain ⟨⟨m, notice⟩, done, _⟩ := outcome_bind_eq_ok.mp h
  obtain ⟨m, set, _⟩ := outcome_bind_eq_ok.mp (outcome_during_eq_ok.mp done)
  obtain ⟨_, _, set⟩ := outcome_bind_eq_ok.mp set
  obtain ⟨w, value, _⟩ := outcome_bind_eq_ok.mp set
  unfold Action.moves
  simp only [read, Command.moves, resolved, outcome_resolved_eq_ok.mp value]
  exact ⟨w, rfl⟩

/-- An action that succeeds makes its moves. -/
theorem goes_runAction {notices : List Notice}
    (h : (f.runAction a c).outcome = .ok (d, notices)) : f.Goes c (a.moves c) d := by
  unfold runAction at h
  obtain ⟨command, read, h⟩ := outcome_bind_eq_ok.mp h
  rw [outcome_ofExcept] at read
  unfold Action.moves
  rw [read]
  cases command with
  | none =>
    obtain ⟨_, _, h⟩ := outcome_bind_eq_ok.mp h
    cases h
    exact .rest c
  | some command =>
    obtain ⟨⟨m, notice⟩, done, h⟩ := outcome_bind_eq_ok.mp h
    cases h
    exact goes_carryOut (outcome_during_eq_ok.mp done)

/-- Actions that succeed make their moves. -/
theorem goes_runActions (h : (f.runActions actions c).outcome = .ok d) :
    f.Goes c (f.movesOf actions c) d := by
  induction actions generalizing c with
  | nil =>
    cases h
    exact .rest d
  | cons a rest ih =>
    obtain ⟨m, notices, one, h⟩ := outcome_runActions_cons h
    rw [movesOf, one]
    exact (goes_runAction one).append (ih h)

/-- A batch that succeeds is a move of its own. -/
theorem goes_runBatch (h : (f.runBatch actions c).outcome = .ok d) :
    f.Goes c [(c, .batch actions)] d := by
  obtain ⟨nexts, branched, replay⟩ := outcome_runBatch_eq_ok.mp h
  exact .move (.batch branched replay) (.rest d)

end Frame

/-! ## §5 Moves on behalf of actions -/

/-- The move is one that can be made on behalf of the actions. Only an action that swaps writes to a
declared place without conversion. -/
def Move.IsOf (actions : List Action) : Move → Prop
  | .write path _ => Frame.Undeclared path ∨ ∃ a ∈ actions, a.kind = "swap_values"
  | .batch together => ∀ a ∈ together, a ∈ actions
  | .supply .. => False
  | _ => True

/-- The move is one that a flow starts with: an input is stored, for the first declaration of its
id, or a null. -/
def Move.IsInitial (flow : Flow) : Move → Prop
  | .supply field _ => flow.declared? "inputs" field.id = some field
  | .write _ v => v = .null
  | _ => False

/-- The moves of a command are on behalf of actions that swap if it does. -/
theorem Command.isOf_moves {all : List Action} {command : Command}
    (swaps : ∀ first second, command = .swapValues first second →
      ∃ a ∈ all, a.kind = "swap_values") (c : Context) : ∀ x ∈ command.moves c, x.2.IsOf all := by
  have nothing : ∀ x ∈ ([] : Trail), x.2.IsOf all := fun x none => absurd none List.not_mem_nil
  cases command with
  | swapValues first second =>
    simp only [Command.moves]
    split
    · split
      · have swap := swaps first second rfl
        exact List.forall_mem_cons.mpr ⟨Or.inr swap, List.forall_mem_singleton.mpr (Or.inr swap)⟩
      · exact nothing
    · exact nothing
  | setValue path v =>
    simp only [Command.moves]
    split
    · exact List.forall_mem_singleton.mpr trivial
    · exact nothing
  | validateValue path =>
    simp only [Command.moves]
    split
    · split
      · exact List.forall_mem_singleton.mpr trivial
      · exact nothing
    · exact nothing
  | _ => exact nothing

/-- The moves of an action are on its behalf. -/
theorem Action.isOf_moves {a : Action} {all : List Action} (ha : a ∈ all) (c : Context) :
    ∀ x ∈ a.moves c, x.2.IsOf all := by
  unfold Action.moves
  split
  · rename_i command read
    refine Command.isOf_moves ?_ c
    rintro first second rfl
    exact ⟨a, ha, Frame.kind_of_swap read⟩
  · exact fun x none => absurd none List.not_mem_nil

namespace Frame

theorem isOf_movesOf {f : Frame} {actions all : List Action} (sub : ∀ a ∈ actions, a ∈ all)
    (c : Context) : ∀ x ∈ f.movesOf actions c, x.2.IsOf all := by
  induction actions generalizing c with
  | nil => exact fun _ none => absurd none List.not_mem_nil
  | cons a rest ih =>
    obtain ⟨first, others⟩ := List.forall_mem_cons.mp sub
    rw [movesOf]
    intro x hx
    rcases List.mem_append.mp hx with hx | hx
    · exact a.isOf_moves first c x hx
    · split at hx
      · exact ih others _ x hx
      · exact absurd hx List.not_mem_nil

/-- The actions take the first context to the second, and these are the moves that they make: those
of each in its turn, or one batch. -/
inductive Acts (f : Frame) (actions : List Action) (c : Context) : Trail → Context → Prop
  | inTurn {d : Context} (done : (f.runActions actions c).outcome = .ok d) :
      Acts f actions c (f.movesOf actions c) d
  | together {d : Context} (done : (f.runBatch actions c).outcome = .ok d) :
      Acts f actions c [(c, .batch actions)] d

theorem Acts.goes {f : Frame} {actions : List Action} {c d : Context} {moves : Trail}
    (h : f.Acts actions c moves d) : f.Goes c moves d := by
  cases h with
  | inTurn done => exact goes_runActions done
  | together done => exact goes_runBatch done

theorem Acts.isOf {f : Frame} {actions all : List Action} {c d : Context} {moves : Trail}
    (h : f.Acts actions c moves d) (sub : ∀ a ∈ actions, a ∈ all) :
    ∀ x ∈ moves, x.2.IsOf all := by
  cases h with
  | inTurn _ => exact isOf_movesOf sub c
  | together _ => exact List.forall_mem_singleton.mpr sub

theorem goes_put {f : Frame} {c d : Context} {path : String} {v : Value}
    (h : (c.put path v).outcome = .ok d) : f.Goes c [(c, .write path v)] d :=
  .move (.write (Context.outcome_writeTraced_eq_ok.mp h)) (.rest d)

theorem goes_store {f : Frame} {c d : Context} {path : String} {v : Value}
    (h : (f.store c path v).outcome = .ok d) : f.Goes c [(c, .store path v)] d := by
  obtain ⟨w, state, coerced, step⟩ := outcome_store_eq_ok.mp h
  exact .move (.store coerced step) (.rest d)

end Frame

end Tabletop
