/-
Tabletop.Proofs.Run.Aliases — whether steps can write their aliases.

Steps write aliases by themselves: what they have rolled, picked, selected
or called becomes `result`, and so on. Such a write is refused if there is a
namespace of the name, and namespaces are made by writes to longer paths.
So the aliases of steps can be written until a move of the run leads into a
namespace of their name, and not any more after that.

  §1 Paths that actions write to
  §2 Moves that make namespaces
  §3 Aliases that steps write
  §4 Runs
-/
import Tabletop.Proofs.Context.Spaces
import Tabletop.Proofs.Run.Boundary

namespace Tabletop

open Context

/-! ## §1 Paths that actions write to -/

/-- The templates of the paths that a command writes to. -/
def Command.targets : Command → List String
  | .setValue path _ => [path]
  | .swapValues first second => [first, second]
  | _ => []

/-- The action writes to the path when it is carried out on the context. -/
def Action.WritesTo (a : Action) (c : Context) (path : String) : Prop :=
  ∃ command, Command.ofAction a = .ok (some command)
    ∧ ∃ written ∈ command.targets, (c.resolvePath written).outcome = .ok path

/-- The written path leads into the namespace. -/
def EntersSpace (space path : String) : Prop := (Path.split path).Enters space

namespace Frame

open Traced

variable {f : Frame} {c d : Context} {space : String}

theorem mem_spaces_store {path : String} {v : Value} (h : (f.store c path v).outcome = .ok d) :
    space ∈ Entries.keys d.spaces ↔ EntersSpace space path ∨ space ∈ Entries.keys c.spaces := by
  obtain ⟨w, state, _, step⟩ := outcome_store_eq_ok.mp h
  exact mem_spaces_write step

theorem mem_spaces_swap {first second : String} (h : (c.swap first second).outcome = .ok d) :
    space ∈ Entries.keys d.spaces ↔
      (∃ written ∈ [first, second], ∃ path, (c.resolvePath written).outcome = .ok path
        ∧ EntersSpace space path) ∨ space ∈ Entries.keys c.spaces := by
  obtain ⟨here, found, h⟩ := outcome_bind_eq_ok.mp h
  obtain ⟨there, found', h⟩ := outcome_bind_eq_ok.mp h
  obtain ⟨m, one, other⟩ := outcome_bind_eq_ok.mp h
  rw [mem_spaces_write (outcome_writeTraced_eq_ok.mp other),
    mem_spaces_write (outcome_writeTraced_eq_ok.mp one), or_left_comm, ← or_assoc]
  refine or_congr ?_ Iff.rfl
  simp [found, found', EntersSpace]

theorem mem_spaces_retag {path : String} {state : SlotState} :
    space ∈ Entries.keys (c.retag path state).spaces ↔ space ∈ Entries.keys c.spaces := by
  unfold retag
  split
  · exact mem_spaces_retagSlot
  · rfl

theorem mem_spaces_validateValue {path : String} (h : (f.validateValue c path).outcome = .ok d) :
    space ∈ Entries.keys d.spaces ↔ space ∈ Entries.keys c.spaces := by
  obtain ⟨path, _, h⟩ := outcome_bind_eq_ok.mp h
  cases found : c.get path with
  | none =>
    simp only [found] at h
    cases h
  | some v =>
    simp only [found] at h
    cases named : (v.field? "model").bind Value.asText? with
    | none =>
      simp only [named] at h
      cases h
      rfl
    | some model =>
      simp only [named] at h
      obtain ⟨_, _, h⟩ := outcome_bind_eq_ok.mp h
      cases h
      exact mem_spaces_retag

/-- A command makes the namespaces that its paths lead into. -/
theorem mem_spaces_carryOut {a : Action} {command : Command} {notice : Notice}
    (h : (f.carryOut a c command).outcome = .ok (d, notice)) :
    space ∈ Entries.keys d.spaces ↔
      (∃ written ∈ command.targets, ∃ path, (c.resolvePath written).outcome = .ok path
        ∧ EntersSpace space path) ∨ space ∈ Entries.keys c.spaces := by
  have idle : command.targets = [] → (space ∈ Entries.keys d.spaces ↔ space ∈ Entries.keys c.spaces)
      → (space ∈ Entries.keys d.spaces ↔ (∃ written ∈ command.targets, ∃ path,
        (c.resolvePath written).outcome = .ok path ∧ EntersSpace space path)
          ∨ space ∈ Entries.keys c.spaces) := by
    intro none_written same
    rw [none_written, same]
    simp
  cases command with
  | setValue written v =>
    obtain ⟨m, done, h⟩ := outcome_bind_eq_ok.mp h
    cases h
    obtain ⟨path, found, done⟩ := outcome_bind_eq_ok.mp done
    obtain ⟨w, _, done⟩ := outcome_bind_eq_ok.mp done
    rw [mem_spaces_store done]
    simp [Command.targets, found]
  | swapValues first second =>
    obtain ⟨m, done, h⟩ := outcome_bind_eq_ok.mp h
    cases h
    exact mem_spaces_swap done
  | validateValue path =>
    obtain ⟨m, done, h⟩ := outcome_bind_eq_ok.mp h
    cases h
    exact idle rfl (mem_spaces_validateValue done)
  | logMessage message =>
    obtain ⟨_, _, h⟩ := outcome_bind_eq_ok.mp h
    obtain ⟨_, _, h⟩ := outcome_bind_eq_ok.mp h
    cases h
    exact idle rfl Iff.rfl
  | displayMessage message =>
    obtain ⟨_, _, h⟩ := outcome_bind_eq_ok.mp h
    cases h
    exact idle rfl Iff.rfl
  | logEvent typeName data =>
    obtain ⟨_, _, h⟩ := outcome_bind_eq_ok.mp h
    obtain ⟨_, _, h⟩ := outcome_bind_eq_ok.mp h
    obtain ⟨_, _, h⟩ := outcome_bind_eq_ok.mp h
    cases h
    exact idle rfl Iff.rfl
  | displayValue path =>
    obtain ⟨_, _, h⟩ := outcome_bind_eq_ok.mp h
    cases h
    exact idle rfl Iff.rfl

/-- An action makes the namespaces that the paths it writes to lead into. -/
theorem mem_spaces_runAction {a : Action} {notices : List Notice}
    (h : (f.runAction a c).outcome = .ok (d, notices)) :
    space ∈ Entries.keys d.spaces ↔
      (∃ path, a.WritesTo c path ∧ EntersSpace space path) ∨ space ∈ Entries.keys c.spaces := by
  unfold runAction at h
  obtain ⟨command, read, h⟩ := outcome_bind_eq_ok.mp h
  rw [outcome_ofExcept] at read
  cases command with
  | none =>
    obtain ⟨_, _, h⟩ := outcome_bind_eq_ok.mp h
    cases h
    refine (or_iff_right ?_).symm
    rintro ⟨path, ⟨command, other, _⟩, _⟩
    rw [read] at other
    cases other
  | some command =>
    obtain ⟨⟨m, notice⟩, done, h⟩ := outcome_bind_eq_ok.mp h
    cases h
    rw [mem_spaces_carryOut (outcome_during_eq_ok.mp done)]
    refine or_congr_left ?_
    constructor
    · rintro ⟨written, target, path, found, enters⟩
      exact ⟨path, ⟨command, read, written, target, found⟩, enters⟩
    · rintro ⟨path, ⟨other, same, written, target, found⟩, enters⟩
      rw [read] at same
      cases same
      exact ⟨written, target, path, found, enters⟩

end Frame

/-! ## §2 Moves that make namespaces -/

/-- The move, made on the context, writes to a path that leads into the namespace. -/
def Move.Enters (space : String) (c : Context) : Move → Prop
  | .write path _ => EntersSpace space path
  | .store path _ => EntersSpace space path
  | .supply field _ => EntersSpace space s!"inputs.{field.id}"
  | .batch actions => ∃ a ∈ actions, ∃ path, a.WritesTo c path ∧ EntersSpace space path
  | .check _ => False
  | .clear => False

namespace Frame

open Traced

variable {f : Frame} {c d : Context} {space : String}

/-- Each action of a batch has made one of the contexts that it is made of. -/
theorem Branched.of_action {actions : List Action} {nexts : List Context} {a : Action}
    (h : f.Branched c actions nexts) (ha : a ∈ actions) :
    ∃ next ∈ nexts, ∃ notices, (f.runAction a c).outcome = .ok (next, notices) := by
  induction h with
  | nil => exact absurd ha List.not_mem_nil
  | cons one _ ih =>
    rcases List.mem_cons.mp ha with rfl | ha
    · exact ⟨_, List.mem_cons_self, one⟩
    · obtain ⟨next, hn, ran⟩ := ih ha
      exact ⟨next, List.mem_cons_of_mem _ hn, ran⟩

/-- A batch makes the namespaces that the paths its actions write to lead into. -/
theorem mem_spaces_batch {actions : List Action} {nexts : List Context}
    (branched : f.Branched c actions nexts)
    (replay : c.applyChanges (c.changesOf nexts) = .ok d) :
    space ∈ Entries.keys d.spaces ↔
      (∃ a ∈ actions, ∃ path, a.WritesTo c path ∧ EntersSpace space path)
        ∨ space ∈ Entries.keys c.spaces := by
  have edits : ∀ next ∈ nexts, c.Edits next := by
    intro next hn
    obtain ⟨a, _, notices, ran⟩ := branched.of_mem hn
    exact (effect_of_runAction ran).edits
  rw [mem_spaces_merge edits replay]
  by_cases there : space ∈ Entries.keys c.spaces
  · exact iff_of_true (Or.inr there) (Or.inr there)
  rw [or_iff_left there, or_iff_left there]
  constructor
  · rintro ⟨next, hn, new⟩
    obtain ⟨a, ha, notices, ran⟩ := branched.of_mem hn
    exact ⟨a, ha, ((mem_spaces_runAction ran).mp new).resolve_right there⟩
  · rintro ⟨a, ha, path, writes, enters⟩
    obtain ⟨next, hn, notices, ran⟩ := branched.of_action ha
    exact ⟨next, hn, (mem_spaces_runAction ran).mpr (Or.inl ⟨path, writes, enters⟩)⟩

/-- After a move there are the namespaces that were there and those that it writes into. -/
theorem Makes.mem_spaces {m : Move} (h : f.Makes c m d) :
    space ∈ Entries.keys d.spaces ↔ m.Enters space c ∨ space ∈ Entries.keys c.spaces := by
  cases h with
  | write step => exact mem_spaces_write step
  | store _ step => exact mem_spaces_write step
  | supply _ step => exact mem_spaces_write step
  | check _ _ _ => exact mem_spaces_retag.trans (or_iff_right fun enters => enters).symm
  | batch branched replay => exact mem_spaces_batch branched replay
  | clear => exact (or_iff_right fun enters => enters).symm

/-- After a chain of moves there are the namespaces that were there and those that some move wrote
into. -/
theorem Goes.mem_spaces {moves : Trail} (h : f.Goes c moves d) :
    space ∈ Entries.keys d.spaces ↔
      (∃ x ∈ moves, x.2.Enters space x.1) ∨ space ∈ Entries.keys c.spaces := by
  induction h with
  | rest => simp
  | move first _ ih =>
    rw [ih, first.mem_spaces, List.exists_mem_cons_iff, or_left_comm, or_assoc]

/-- A name that flows do not reserve is refused as an alias once a move has led into a namespace of
the name, and only then. -/
theorem Goes.set_alias {moves : Trail} (h : f.Goes f.blank moves c) {name : String}
    (named : Path.split name = [name]) (free : name ∉ reservedNames) (v : Value) :
    ((∀ x ∈ moves, ¬ x.2.Enters name x.1) → c.set name v = .ok (c.putAlias name v)) ∧
    ((∃ x ∈ moves, x.2.Enters name x.1) → c.set name v = .error (.reserved name)) := by
  have initial : name ∉ Entries.keys f.blank.spaces := by
    have declared : Entries.keys f.blank.spaces = declaredNames := by rfl
    rw [declared]
    exact fun there => free ((by decide : declaredNames ⊆ reservedNames) there)
  have spaces : name ∈ Entries.keys c.spaces ↔ ∃ x ∈ moves, x.2.Enters name x.1 := by
    rw [h.mem_spaces, or_iff_left initial]
  unfold Context.set
  rw [named]
  refine ⟨fun outside => ?_, fun enters => ?_⟩
  · have writable : c.isReserved name = false := by
      refine isReserved_eq_false_iff.mpr ⟨free, fun there => ?_⟩
      obtain ⟨x, hx, enters⟩ := spaces.mp there
      exact outside x hx enters
    exact write_alias writable .plain v
  · have reserved : c.isReserved name = true := by
      rw [← Bool.not_eq_false, isReserved_eq_false_iff]
      exact fun writable => writable.2 (spaces.mpr enters)
    simp only [write, reserved, if_true]

end Frame

/-! ## §3 Aliases that steps write -/

/-- The aliases that steps write by themselves. -/
def stepAliases : List String := ["result", "item", "results", "entry", "key", "value"]

namespace Frame

open Traced

/-- The step, visited in the first context, comes to its body in the second one. -/
def ComesToBody (f : Frame) (step : Step) (c d : Context) : Prop :=
  ∃ emptied, (c.put step.place (.mapping [])).outcome = .ok emptied
    ∧ (meetsCondition step emptied).outcome = .ok true
    ∧ (f.runActions step.preActions emptied).outcome = .ok d

/-- The moves by which the step, visited in the context, comes to its body. -/
def movesToBody (f : Frame) (step : Step) (c : Context) : Trail :=
  match (c.put step.place (.mapping [])).outcome with
  | .ok emptied =>
      (c, .write step.place (.mapping [])) :: f.movesOf step.preActions emptied
  | .error _ => []

/-- The body of the step, begun in the context `c`, comes to write an alias by itself: the moves
that it has made, the context in which it writes, and the name. -/
inductive Exposes (f : Frame) (caller : Caller) (step : Step) (c : Context) :
    StepKind → Trail → Context → String → Prop
  /-- What the step has done is exposed as its result. -/
  | result {kind : StepKind} {own : Trail} {d : Context}
      (done : (Listed.perform f caller step c kind []).Gives (d, own)) :
      Exposes f caller step c kind own d "result"
  | item {kind : StepKind} {few own : Trail} {d e : Context}
      (done : (Listed.perform f caller step c kind []).Gives (d, few))
      (exposed : (Listed.exposeResult step "result" d few).Gives (e, own)) :
      Exposes f caller step c kind own e "item"
  /-- A sequence has rolled for some items and goes on with the next one. -/
  | nextItem {s : DiceSequence} {expression item : Value} {before : List Value} {few : Trail}
      {d e : Context}
      (rolled : (Listed.rollForItems f step expression s.actions before c []).Gives (d, few))
      (kept : (d.put s!"{step.place}.item" item).outcome = .ok e) :
      Exposes f caller step c (.diceSequence (some s))
        (few ++ [(d, .write s!"{step.place}.item" item)]) e "item"
  | itemRolled {s : DiceSequence} {expression item v : Value} {before : List Value} {few : Trail}
      {d e g h : Context}
      (rolled : (Listed.rollForItems f step expression s.actions before c []).Gives (d, few))
      (kept : (d.put s!"{step.place}.item" item).outcome = .ok e)
      (named : (e.put "item" item).outcome = .ok g)
      (found : (g.put s!"{step.place}.result" v).outcome = .ok h) :
      Exposes f caller step c (.diceSequence (some s))
        (few ++ [(d, .write s!"{step.place}.item" item), (e, .write "item" item),
          (g, .write s!"{step.place}.result" v)]) h "result"
  /-- Some tables are done, and a value is picked from the next one. -/
  | picked {before after : List TableTarget} {target : TableTarget} {v : Value} {few : Trail}
      {d e : Context} (done : (Listed.rollOnTables f step before c []).Gives (d, few))
      (found : (d.put s!"{step.place}.result" v).outcome = .ok e) :
      Exposes f caller step c (.tableRoll (before ++ target :: after))
        (few ++ [(d, .write s!"{step.place}.result" v)]) e "result"
  /-- Labels of choices are made from the entries of a table. -/
  | entry {choices : List Value} {source : ChoiceSource} :
      Exposes f caller step c (.playerChoice choices (some source)) [] c "entry"
  /-- Labels of choices are made from the keys of a mapping. -/
  | key {choices : List Value} {source : ChoiceSource} :
      Exposes f caller step c (.playerChoice choices (some source)) [] c "key"
  | value {choices : List Value} {source : ChoiceSource} {key : Value} {d : Context}
      (named : (c.put "key" key).outcome = .ok d) :
      Exposes f caller step c (.playerChoice choices (some source)) [(c, .write "key" key)] d
        "value"
  /-- The player has selected. -/
  | several {choices : List Value} {source : ChoiceSource} {v : Value} {d : Context}
      (kept : (c.put s!"{step.place}.results" v).outcome = .ok d) :
      Exposes f caller step c (.playerChoice choices (some source))
        [(c, .write s!"{step.place}.results" v)] d "results"
  | one {choices : List Value} {source : Option ChoiceSource} {v : Value} {d : Context}
      (kept : (c.put s!"{step.place}.result" v).outcome = .ok d) :
      Exposes f caller step c (.playerChoice choices source)
        [(c, .write s!"{step.place}.result" v)] d "result"

variable {f : Frame} {caller : Caller} {step : Step} {c d e : Context} {kind : StepKind}
  {name : String} {own : Trail} {all : List Action}

theorem Exposes.mem_stepAliases (h : f.Exposes caller step c kind own d name) :
    name ∈ stepAliases := by
  cases h <;> decide

/-- The moves by which a step comes to its body are on behalf of its actions. -/
theorem ComesToBody.goes (h : f.ComesToBody step c d) (sub : ∀ a ∈ step.preActions, a ∈ all) :
    f.Goes c (f.movesToBody step c) d ∧ ∀ x ∈ f.movesToBody step c, x.2.IsOf all := by
  obtain ⟨emptied, cleared, _, prepared⟩ := h
  unfold movesToBody
  rw [cleared]
  have place : Undeclared step.place := undeclared_step step ⟨[], (List.append_nil _).symm⟩
  refine ⟨(goes_put cleared).append (goes_runActions prepared), ?_⟩
  exact List.forall_mem_cons.mpr ⟨Or.inl place, isOf_movesOf sub emptied⟩

/-- The moves of a step go on with a write to a place that is not declared. -/
theorem goes_thenPut {v : Value} {moves : Trail}
    (before : f.Goes c moves d ∧ ∀ x ∈ moves, x.2.IsOf all) {path : String}
    (place : Undeclared path) (h : (d.put path v).outcome = .ok e) :
    f.Goes c (moves ++ [(d, .write path v)]) e
      ∧ ∀ x ∈ moves ++ [(d, .write path v)], x.2.IsOf all :=
  ⟨before.1.append (goes_put h),
    List.forall_mem_append.mpr ⟨before.2, List.forall_mem_singleton.mpr (Or.inl place)⟩⟩

/-- The moves that the body of a step makes before it writes an alias lead to where it does, and are
on behalf of the actions of the step. -/
theorem Exposes.goes (h : f.Exposes caller step c kind own d name)
    (sub : ∀ a ∈ kind.actions, a ∈ all) (ours : ∀ a ∈ step.actions, a ∈ all) :
    f.Goes c own d ∧ ∀ x ∈ own, x.2.IsOf all := by
  have nothing : f.Goes c [] c ∧ ∀ x ∈ ([] : Trail), x.2.IsOf all :=
    ⟨.rest c, fun _ none => absurd none List.not_mem_nil⟩
  have alone {m : Trail} {b : Context} (leads : ∃ moves, m = [] ++ moves ∧ f.Goes c moves b
      ∧ ∀ x ∈ moves, x.2.IsOf all) : f.Goes c m b ∧ ∀ x ∈ m, x.2.IsOf all := by
    obtain ⟨_, rfl, leads⟩ := leads
    exact leads
  cases h with
  | result done => exact alone ((tracks_perform sub ours).leads done)
  | item done exposed =>
    have named : Path.split "result" = ["result"] := by rfl
    obtain ⟨goes, mine⟩ := alone ((tracks_perform sub ours).leads done)
    obtain ⟨more, rfl, goes', mine'⟩ := (tracks_exposeResult named).leads exposed
    exact ⟨goes.append goes', List.forall_mem_append.mpr ⟨mine, mine'⟩⟩
  | nextItem rolled kept =>
    have before := alone ((tracks_rollForItems sub).leads rolled)
    exact goes_thenPut before (undeclared_below step ".item") kept
  | itemRolled rolled kept named found =>
    have before := alone ((tracks_rollForItems sub).leads rolled)
    have shown := goes_thenPut before (undeclared_below step ".item") kept
    have aliased := goes_thenPut shown (undeclared_alias (by rfl)) named
    have whole := goes_thenPut aliased (undeclared_below step ".result") found
    simp only [List.append_assoc] at whole
    exact whole
  | picked done found =>
    have before := alone ((tracks_rollOnTables fun a ha => sub a ?_).leads done)
    · exact goes_thenPut before (undeclared_below step ".result") found
    · obtain ⟨target, there, has⟩ := List.mem_flatMap.mp ha
      exact List.mem_flatMap.mpr ⟨target, List.mem_append_left _ there, has⟩
  | entry => exact nothing
  | key => exact nothing
  | value named => exact goes_thenPut nothing (undeclared_alias (by rfl)) named
  | several kept => exact goes_thenPut nothing (undeclared_below step ".results") kept
  | one kept => exact goes_thenPut nothing (undeclared_below step ".result") kept

end Frame

/-! ## §4 Runs -/

/-- The alias can be written in the context exactly if none of the moves has led into a namespace
of its name, and is refused for that namespace exactly if one has. -/
def Context.AliasDecided (c : Context) (moves : Trail) (name : String) : Prop :=
  ∀ v,
    (c.set name v = .ok (c.putAlias name v) ↔ ∀ x ∈ moves, ¬ x.2.Enters name x.1) ∧
    (c.set name v = .error (.reserved name) ↔ ∃ x ∈ moves, x.2.Enters name x.1)

namespace Frame

variable {f : Frame} {caller : Caller} {step : Step} {c d e : Context} {kind : StepKind}
  {name : String} {trail own : Trail}

/-- The moves of a chain decide about the aliases of steps. -/
theorem Goes.aliasDecided {moves : Trail} (chain : f.Goes f.blank moves c)
    (engine : name ∈ stepAliases) : c.AliasDecided moves name := by
  intro v
  have named : ∀ name ∈ stepAliases, Path.split name = [name] := by decide
  have free : ∀ name ∈ stepAliases, name ∉ reservedNames := by decide
  obtain ⟨writable, refused⟩ := chain.set_alias (named name engine) (free name engine) v
  refine ⟨⟨fun written => ?_, writable⟩, ⟨fun failed => ?_, refused⟩⟩
  · intro x hx enters
    rw [refused ⟨x, hx, enters⟩] at written
    cases written
  · by_contra outside
    push Not at outside
    rw [writable outside] at failed
    cases failed

/-- The trail of a run goes on with the moves by which its next step comes to write an alias. -/
theorem HasTrail.goes_exposes {inputs : Fields} {s t : Session} {index : Nat}
    (h : f.HasTrail caller inputs s t index c trail) (here : f.flow.steps[index]? = some step)
    (read : step.kind = .ok kind) (begun : f.ComesToBody step c d)
    (exposes : f.Exposes caller step d kind own e name) :
    f.Goes f.blank (trail ++ f.movesToBody step c ++ own) e
      ∧ f.Ordinary (trail ++ f.movesToBody step c ++ own) := by
  have every := allActions_of_getElem? here
  have before : ∀ a ∈ step.preActions, a ∈ f.flow.allActions := fun a ha =>
    every a (List.mem_append_left _ (List.mem_append_left _ ha))
  have ours : ∀ a ∈ step.actions, a ∈ f.flow.allActions := fun a ha =>
    every a (List.mem_append_left _ (List.mem_append_right _ ha))
  have inside : ∀ a ∈ kind.actions, a ∈ f.flow.allActions := by
    intro a ha
    refine every a (List.mem_append_right _ ?_)
    rw [read]
    exact ha
  obtain ⟨chain, ordinary⟩ := h.goes
  obtain ⟨comes, mine⟩ := begun.goes before
  obtain ⟨body, mine'⟩ := exposes.goes inside ours
  refine ⟨(chain.append comes).append body, ?_⟩
  refine List.forall_mem_append.mpr ⟨List.forall_mem_append.mpr ⟨ordinary, ?_⟩, ?_⟩
  · exact fun x hx => Or.inr (mine x hx)
  · exact fun x hx => Or.inr (mine' x hx)

/-- The aliases of steps in runs. Every run has a trail, the moves that it has made itself. Where
the next step comes to write an alias by itself, the trail and the moves of the step have led, and
they decide about the alias: it can be written if none of them has led into a namespace of its
name, and is refused for that namespace if one has. The same holds at the end of every chain of
moves. -/
theorem step_aliases_writable_iff (f : Frame) :
    (∀ caller inputs s t index c, f.AtBoundary caller inputs s t index c ↔
      ∃ trail, f.HasTrail caller inputs s t index c trail) ∧
    (∀ caller inputs s t index c trail step kind d own e name,
      f.HasTrail caller inputs s t index c trail → f.flow.steps[index]? = some step →
      step.kind = .ok kind → f.ComesToBody step c d → f.Exposes caller step d kind own e name →
        name ∈ stepAliases ∧ f.Goes f.blank (trail ++ f.movesToBody step c ++ own) e ∧
        f.Ordinary (trail ++ f.movesToBody step c ++ own) ∧
        e.AliasDecided (trail ++ f.movesToBody step c ++ own) name) ∧
    ∀ moves c, f.Goes f.blank moves c → ∀ name ∈ stepAliases, c.AliasDecided moves name := by
  refine ⟨fun _ _ _ _ _ _ => atBoundary_iff_hasTrail, ?_, ?_⟩
  · intro caller inputs s t index c trail step kind d own e name before here read begun exposes
    obtain ⟨chain, ordinary⟩ := before.goes_exposes here read begun exposes
    have engine := exposes.mem_stepAliases
    exact ⟨engine, chain, ordinary, chain.aliasDecided engine⟩
  · exact fun moves c chain name engine => chain.aliasDecided engine

/-- A step that keeps the score below `result`. -/
def scoreStep : Step where
  id := "score"
  typeName := "completion"
  actions := [⟨"set_value", .mapping [("path", .text "result.total"), ("value", .int 5)]⟩]

/-- The step after it. -/
def closeStep : Step := { id := "close", typeName := "completion" }

/-- The flow of the two steps. -/
def scoring : Flow := { id := "scoring", steps := [scoreStep, closeStep] }

/-- The engine of the flow. -/
def scorer : Engine := { catalog := { flows := [("scoring", scoring)] } }

/-- A score that is kept elsewhere leaves the result of steps writable. -/
theorem scoring_keeps_result :
    let f : Frame := ⟨scorer, scoring, 0⟩
    ∃ c, f.Goes f.blank [(f.blank, .store "score.total" (.int 5))] c ∧
      c.set "result" (.int 1) = .ok (c.putAlias "result" (.int 1)) := by
  intro f
  have coerced : f.flow.coerceFor f.engine.catalog f.engine.make "score.total" (.int 5)
      = .ok (.int 5, .plain) := by rfl
  have step : f.blank.setTagged "score.total" (.int 5) .plain
      = .ok (f.blank.putSlot "score" "total" ⟨.int 5, .plain⟩) := by rfl
  have chain := Goes.move (.store coerced step) (.rest _)
  refine ⟨_, chain, ?_⟩
  refine ((step_aliases_writable_iff f).2.2 _ _ chain "result" (by decide) _).1.mpr ?_
  intro x hx
  rw [List.mem_singleton.mp hx]
  rintro ⟨entry, rest, elsewhere⟩
  have leads : Path.split "score.total" = ["score", "total"] := by rfl
  rw [leads] at elsewhere
  exact absurd (List.cons.inj elsewhere).1 (by decide)

/-- The write is refused as one to a reserved name. -/
def refusedName? : Except ContextError Context → Option String
  | .ok _ => none
  | .error (.reserved name) => some name
  | .error _ => none

theorem eq_reserved_of_refusedName? {outcome : Except ContextError Context} {name : String}
    (h : refusedName? outcome = some name) : outcome = .error (.reserved name) := by
  unfold refusedName? at h
  split at h <;> cases h
  rfl

/-- The name that a failure refuses as an alias. -/
def refusedIn? : Failure → Option String
  | .context (.reserved name) => some name
  | _ => none

/-- The name that a run is refused as an alias, with the step at which it is. -/
def refusedAlias? : Except Stop Fields → Option (String × Option String)
  | .ok _ => none
  | .error .outOfFuel => none
  | .error (.failed error) => (refusedIn? error.failure).map fun name => (name, error.step)

/-- After the first step there is a namespace `result`, so the second one cannot write its result,
and the run fails there. -/
theorem scoring_blocks_result :
    let f : Frame := ⟨scorer, scoring, 0⟩
    (∃ caller inputs s t c d own e, f.AtBoundary caller inputs s t 1 c
      ∧ f.flow.steps[1]? = some closeStep ∧ f.ComesToBody closeStep c d
      ∧ f.Exposes caller closeStep d .completion own e "result"
      ∧ e.set "result" (.mapping [("completed", .bool true)]) = .error (.reserved "result")) ∧
    refusedAlias? (scorer.execute {} "scoring" []).result = some ("result", some "close") := by
  intro f
  refine ⟨?_, by decide +kernel⟩
  let caller : Caller := fun id _ => Run.fail (.unknownFlow id)
  let run : Run ((Context × Nat) × Context × Context) := do
    let c ← Run.traced (f.start [])
    let x ← (f.advance caller scoreStep 0 c).atStep scoreStep.id
    let d ← Run.traced (x.1.put closeStep.place (.mapping []))
    let e ← f.perform caller closeStep d .completion
    pure (x, d, e)
  let refused (y : (Context × Nat) × Context × Context) : Bool := decide (y.1.2 = 1
    ∧ refusedName? (y.2.2.set "result" (.mapping [("completed", .bool true)])) = some "result")
  have ends : ((run { host := {} }).1.toOption.any refused) = true := by decide +kernel
  obtain ⟨⟨⟨c, next⟩, d, e⟩, t, ran, wrong⟩ := Run.exists_of_test ends
  obtain ⟨rfl, reserved⟩ := of_decide_eq_true wrong
  obtain ⟨c₀, s, begun, ran⟩ := Run.bind_apply_eq_ok ran
  obtain ⟨⟨c₁, i⟩, u, done, ran⟩ := Run.bind_apply_eq_ok ran
  obtain ⟨d₁, v, cleared, ran⟩ := Run.bind_apply_eq_ok ran
  obtain ⟨e₁, w, performed, ran⟩ := Run.bind_apply_eq_ok ran
  cases ran
  have at_close : f.AtBoundary caller [] { host := {} } u 1 c :=
    (AtBoundary.start begun).step (by rfl) done
  have comes : f.ComesToBody closeStep c d :=
    ⟨d, Run.gives_traced ⟨_, _, cleared⟩, by rfl, by rfl⟩
  have tracked : Tracks f (Move.IsOf []) d (Listed.perform f caller closeStep d .completion)
      (f.perform caller closeStep d .completion) id :=
    tracks_perform (fun _ none => none) (fun _ none => none)
  obtain ⟨own, listed⟩ := (tracked.eq_ok_iff []).mp performed
  exact ⟨caller, [], _, u, c, d, own, e, at_close, by rfl, comes, .result ⟨_, _, listed⟩,
    eq_reserved_of_refusedName? reserved⟩

end Frame

end Tabletop
