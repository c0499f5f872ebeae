/-
Tabletop.Proofs.Run.Effect — what an action can do to a context.

An action that succeeds keeps the context, stores a converted value, swaps
two values, or marks a checked entry (`Effect`); there is nothing else. A
list of actions is a chain of effects, and a batch is the replay of what
each action does to the same context. Whatever an action does is made of
writes and tags.

  §1 Successful computations
  §2 The effect of one action
  §3 Lists and batches
-/
import Tabletop.Proofs.Context.Disjoint
import Tabletop.Run.Action

namespace Tabletop

/-! ## §1 Successful computations -/

namespace Traced

variable {α : Type}

@[simp] theorem outcome_ofExcept (o : Except Failure α) : (ofExcept o).outcome = o := rfl

theorem outcome_during_eq_ok {t : Traced α} {place : Place} {a : α} :
    (t.during place).outcome = .ok a ↔ t.outcome = .ok a := by
  obtain ⟨events, outcome⟩ := t
  cases outcome <;> simp [during, Except.mapError]

theorem outcome_resolved_eq_ok {o : Except TemplateError α} {a : α} :
    (resolved o).outcome = .ok a ↔ o = .ok a := by
  cases o <;> simp [resolved, Except.mapError]

theorem outcome_made_eq_ok {o : Except InstantiationError α} {a : α} :
    (made o).outcome = .ok a ↔ o = .ok a := by
  cases o <;> simp [made, Except.mapError]

end Traced

namespace Context

open Traced

theorem outcome_warnShadowing (c : Context) (p : Path) : (c.warnShadowing p).outcome = .ok () := by
  unfold warnShadowing
  cases c.shadowing? p <;> rfl

/-- A write with warnings succeeds as the write does. -/
theorem outcome_writeTraced_eq_ok {c d : Context} {state : SlotState} {v : Value} {p : Path} :
    (c.writeTraced state v p).outcome = .ok d ↔ c.write state v p = .ok d := by
  unfold writeTraced
  rw [outcome_bind_eq_ok]
  constructor
  · rintro ⟨e, hw, h⟩
    obtain ⟨_, _, h⟩ := outcome_bind_eq_ok.mp h
    cases h
    cases hc : c.write state v p with
    | ok m =>
      rw [hc] at hw
      cases hw
      rfl
    | error x =>
      rw [hc] at hw
      cases hw
  · intro h
    rw [h]
    exact ⟨d, rfl, outcome_bind_eq_ok.mpr ⟨(), outcome_warnShadowing c p, rfl⟩⟩

/-- A replay with warnings succeeds as the replay does. -/
theorem outcome_replay_eq_ok {c d : Context} {changes : List Change} :
    (c.replay changes).outcome = .ok d ↔ c.applyChanges changes = .ok d := by
  induction changes generalizing c with
  | nil =>
    change (Except.ok c = Except.ok d) ↔ (Except.ok c = Except.ok d)
    simp
  | cons change rest ih =>
    cases change with
    | write p v =>
      rw [replay, outcome_bind_eq_ok]
      constructor
      · rintro ⟨m, hw, h⟩
        rw [outcome_writeTraced_eq_ok] at hw
        simp only [applyChanges, applyChange, hw]
        exact ih.mp h
      · intro h
        cases hw : c.write .plain v p with
        | error e =>
          simp only [applyChanges, applyChange, hw] at h
          cases h
        | ok m =>
          simp only [applyChanges, applyChange, hw] at h
          exact ⟨m, outcome_writeTraced_eq_ok.mpr hw, ih.mpr h⟩
    | retag space entry state => exact ih

end Context

/-- The action sets a value, at the path when carried out on the context. -/
def Action.Sets (a : Action) (c : Context) (path : String) : Prop :=
  ∃ written v, Command.ofAction a = .ok (some (.setValue written v))
    ∧ (c.resolvePath written).outcome = .ok path

namespace Frame

open Traced

/-! ## §2 The effect of one action -/

/-- What an action can make of a context. -/
inductive Effect (f : Frame) (a : Action) (c : Context) : Context → Prop
  | kept : Effect f a c c
  /-- A value is stored, converted to the type declared at the path. -/
  | stored {path : String} {v w : Value} {state : SlotState} {d : Context}
      (sets : a.Sets c path)
      (coerced : f.flow.coerceFor f.engine.catalog f.engine.make path v = .ok (w, state))
      (step : c.setTagged path w state = .ok d) : Effect f a c d
  | swapped {first second : String} {v w : Value} {m d : Context}
      (kind : a.kind = "swap_values") (one : c.set first v = .ok m)
      (other : m.set second w = .ok d) : Effect f a c d
  /-- The value at the path, whatever it names as its model, is an object of it. -/
  | validated {path model : String} {v : Value} {object : ModelObject}
      (found : c.get path = some v) (named : (v.field? "model").bind Value.asText? = some model)
      (made : f.engine.make.instantiate model v = .ok object) :
      Effect f a c (c.retag path (.validated model))

/-- A value that is stored is converted and written. -/
theorem outcome_store_eq_ok {f : Frame} {c d : Context} {path : String} {v : Value} :
    (f.store c path v).outcome = .ok d ↔
      ∃ w state, f.flow.coerceFor f.engine.catalog f.engine.make path v = .ok (w, state)
        ∧ c.setTagged path w state = .ok d := by
  unfold store
  rw [outcome_bind_eq_ok]
  constructor
  · rintro ⟨⟨w, state⟩, coerced, h⟩
    exact ⟨w, state, coerced, Context.outcome_writeTraced_eq_ok.mp h⟩
  · rintro ⟨w, state, coerced, h⟩
    exact ⟨(w, state), coerced, Context.outcome_writeTraced_eq_ok.mpr h⟩

/-- Only an action of its kind swaps. -/
theorem kind_of_swap {a : Action} {first second : String}
    (h : Command.ofAction a = .ok (some (.swapValues first second))) :
    a.kind = "swap_values" := by
  unfold Command.ofAction at h
  split at h
  · cases hp : Command.argument a "path" with
    | error e =>
      rw [hp] at h
      cases h
    | ok path =>
      rw [hp] at h
      cases hv : a.payload.field? "value" <;> simp [hv, bind, Except.bind] at h
  · assumption
  · cases h
  · cases h
  · cases h
  · cases hp : Command.pathOf a <;> simp [hp, Except.map] at h
  · cases hp : Command.pathOf a <;> simp [hp, Except.map] at h
  · cases h

theorem effect_of_setValue {f : Frame} {a : Action} {c d : Context} {written : String} {v : Value}
    (read : Command.ofAction a = .ok (some (.setValue written v)))
    (h : (f.setValue c written v).outcome = .ok d) : f.Effect a c d := by
  obtain ⟨path, resolved, h⟩ := outcome_bind_eq_ok.mp h
  obtain ⟨w, _, h⟩ := outcome_bind_eq_ok.mp h
  obtain ⟨_, _, coerced, step⟩ := outcome_store_eq_ok.mp h
  exact .stored ⟨written, v, read, resolved⟩ coerced step

theorem effect_of_swap {f : Frame} {a : Action} {c d : Context} {first second : String}
    (kind : a.kind = "swap_values") (h : (c.swap first second).outcome = .ok d) :
    f.Effect a c d := by
  obtain ⟨first, _, h⟩ := outcome_bind_eq_ok.mp h
  obtain ⟨second, _, h⟩ := outcome_bind_eq_ok.mp h
  obtain ⟨m, one, other⟩ := outcome_bind_eq_ok.mp h
  exact .swapped kind (Context.outcome_writeTraced_eq_ok.mp one)
    (Context.outcome_writeTraced_eq_ok.mp other)

theorem effect_of_validateValue {f : Frame} {a : Action} {c d : Context} {path : String}
    (h : (f.validateValue c path).outcome = .ok d) : f.Effect a c d := by
  obtain ⟨path, _, h⟩ := outcome_bind_eq_ok.mp h
  cases found : c.get path with
  | none =>
    simp only [found] at h
    cases h
  | some v =>
    simp only [found] at h
    cases named : (v.field? "model").bind Value.asText? with
    | none =>
      simp only [named] at h
      cases h
      exact .kept
    | some model =>
      simp only [named] at h
      obtain ⟨object, made, h⟩ := outcome_bind_eq_ok.mp h
      cases h
      exact .validated found named (outcome_made_eq_ok.mp made)

/-- A command that succeeds has one of the effects. -/
theorem effect_of_carryOut {f : Frame} {a : Action} {c d : Context} {command : Command}
    {notice : Notice} (read : Command.ofAction a = .ok (some command))
    (h : (f.carryOut a c command).outcome = .ok (d, notice)) : f.Effect a c d := by
  cases command with
  | setValue path v =>
    obtain ⟨m, done, h⟩ := outcome_bind_eq_ok.mp h
    cases h
    exact effect_of_setValue read done
  | swapValues first second =>
    obtain ⟨m, done, h⟩ := outcome_bind_eq_ok.mp h
    cases h
    exact effect_of_swap (kind_of_swap read) done
  | validateValue path =>
    obtain ⟨m, done, h⟩ := outcome_bind_eq_ok.mp h
    cases h
    exact effect_of_validateValue done
  | logMessage message =>
    obtain ⟨_, _, h⟩ := outcome_bind_eq_ok.mp h
    obtain ⟨_, _, h⟩ := outcome_bind_eq_ok.mp h
    cases h
    exact .kept
  | displayMessage message =>
    obtain ⟨_, _, h⟩ := outcome_bind_eq_ok.mp h
    cases h
    exact .kept
  | logEvent typeName data =>
    obtain ⟨_, _, h⟩ := outcome_bind_eq_ok.mp h
    obtain ⟨_, _, h⟩ := outcome_bind_eq_ok.mp h
    obtain ⟨_, _, h⟩ := outcome_bind_eq_ok.mp h
    cases h
    exact .kept
  | displayValue path =>
    obtain ⟨_, _, h⟩ := outcome_bind_eq_ok.mp h
    cases h
    exact .kept

/-- An action that succeeds has one of the effects. -/
theorem effect_of_runAction {f : Frame} {a : Action} {c d : Context} {notices : List Notice}
    (h : (f.runAction a c).outcome = .ok (d, notices)) : f.Effect a c d := by
  unfold runAction at h
  obtain ⟨command, read, h⟩ := outcome_bind_eq_ok.mp h
  cases command with
  | none =>
    obtain ⟨_, _, h⟩ := outcome_bind_eq_ok.mp h
    cases h
    exact .kept
  | some command =>
    obtain ⟨⟨m, notice⟩, done, h⟩ := outcome_bind_eq_ok.mp h
    cases h
    exact effect_of_carryOut read (outcome_during_eq_ok.mp done)

/-- An action that sets a value stores it, converted, at the path that it names. -/
theorem stored_of_sets {f : Frame} {a : Action} {c d : Context} {path : String}
    {notices : List Notice} (sets : a.Sets c path)
    (h : (f.runAction a c).outcome = .ok (d, notices)) :
    ∃ v w state, f.flow.coerceFor f.engine.catalog f.engine.make path v = .ok (w, state)
      ∧ c.setTagged path w state = .ok d := by
  obtain ⟨written, v, read, resolved⟩ := sets
  unfold runAction at h
  obtain ⟨command, same, h⟩ := outcome_bind_eq_ok.mp h
  rw [outcome_ofExcept, read] at same
  cases same
  obtain ⟨⟨m, notice⟩, done, h⟩ := outcome_bind_eq_ok.mp h
  cases h
  obtain ⟨m, set, done⟩ := outcome_bind_eq_ok.mp (outcome_during_eq_ok.mp done)
  cases done
  obtain ⟨path', resolved', set⟩ := outcome_bind_eq_ok.mp set
  rw [resolved] at resolved'
  cases resolved'
  obtain ⟨v', _, stored⟩ := outcome_bind_eq_ok.mp set
  obtain ⟨w, state, coerced, step⟩ := outcome_store_eq_ok.mp stored
  exact ⟨v', w, state, coerced, step⟩

/-- What an action does is made of writes and tags. -/
theorem Effect.edits {f : Frame} {a : Action} {c d : Context} (h : f.Effect a c d) :
    c.Edits d := by
  cases h with
  | kept => exact .refl
  | stored _ _ step => exact .setTagged .refl step
  | swapped _ one other => exact .set (.set .refl one) other
  | validated _ _ _ => exact .retag _ _ .refl

/-! ## §3 Lists and batches -/

/-- Where several actions succeed, the first one does, and the others on what it makes. -/
theorem outcome_runActions_cons {f : Frame} {a : Action} {rest : List Action} {c d : Context}
    (h : (f.runActions (a :: rest) c).outcome = .ok d) :
    ∃ m notices, (f.runAction a c).outcome = .ok (m, notices)
      ∧ (f.runActions rest m).outcome = .ok d := by
  obtain ⟨⟨m, notices⟩, one, h⟩ := outcome_bind_eq_ok.mp h
  obtain ⟨_, _, h⟩ := outcome_bind_eq_ok.mp h
  exact ⟨m, notices, one, h⟩

/-- What the actions of a batch make of its base, each on its own. -/
def Branched (f : Frame) (base : Context) (actions : List Action) (nexts : List Context) : Prop :=
  List.Forall₂ (fun a next => ∃ notices, (f.runAction a base).outcome = .ok (next, notices))
    actions nexts

/-- Each action makes one thing of the base. -/
theorem Branched.unique {f : Frame} {base : Context} {actions : List Action}
    {nexts others : List Context} (h : f.Branched base actions nexts)
    (k : f.Branched base actions others) : nexts = others := by
  refine List.right_unique_forall₂' ?_ h k
  rintro a next other ⟨_, hn⟩ ⟨_, ho⟩
  rw [hn] at ho
  cases ho
  rfl

/-- What a batch is made of is made by its actions. -/
theorem Branched.of_mem {f : Frame} {base next : Context} {actions : List Action}
    {nexts : List Context} (h : f.Branched base actions nexts) (hn : next ∈ nexts) :
    ∃ a ∈ actions, ∃ notices, (f.runAction a base).outcome = .ok (next, notices) := by
  induction h with
  | nil => exact absurd hn List.not_mem_nil
  | cons one _ ih =>
    rcases List.mem_cons.mp hn with rfl | hn
    · exact ⟨_, List.mem_cons_self, one⟩
    · obtain ⟨a, ha, ran⟩ := ih hn
      exact ⟨a, List.mem_cons_of_mem _ ha, ran⟩

theorem outcome_batchChanges_eq_ok {f : Frame} {base : Context} {actions : List Action}
    {changes : List Change} :
    (∃ notices, (f.batchChanges base actions).outcome = .ok (changes, notices)) ↔
      ∃ nexts, f.Branched base actions nexts ∧ changes = base.changesOf nexts := by
  induction actions generalizing changes with
  | nil =>
    constructor
    · rintro ⟨notices, h⟩
      cases h
      exact ⟨[], .nil, rfl⟩
    · rintro ⟨nexts, branched, rfl⟩
      cases branched
      exact ⟨[], rfl⟩
  | cons a rest ih =>
    constructor
    · rintro ⟨notices, h⟩
      obtain ⟨⟨next, here⟩, one, h⟩ := outcome_bind_eq_ok.mp h
      obtain ⟨⟨more, after⟩, others, h⟩ := outcome_bind_eq_ok.mp h
      cases h
      obtain ⟨nexts, branched, rfl⟩ := ih.mp ⟨after, others⟩
      exact ⟨next :: nexts, .cons ⟨here, one⟩ branched, rfl⟩
    · rintro ⟨nexts, branched, rfl⟩
      cases branched with
      | cons one branched =>
        obtain ⟨here, one⟩ := one
        obtain ⟨after, others⟩ := ih.mpr ⟨_, branched, rfl⟩
        refine ⟨here ++ after, ?_⟩
        exact outcome_bind_eq_ok.mpr ⟨_, one, outcome_bind_eq_ok.mpr ⟨_, others, rfl⟩⟩

/-- A batch succeeds if each of its actions does on the base and all their changes can be replayed
there. -/
theorem outcome_runBatch_eq_ok {f : Frame} {actions : List Action} {base merged : Context} :
    (f.runBatch actions base).outcome = .ok merged ↔
      ∃ nexts, f.Branched base actions nexts
        ∧ base.applyChanges (base.changesOf nexts) = .ok merged := by
  constructor
  · intro h
    obtain ⟨⟨changes, notices⟩, gathered, h⟩ := outcome_bind_eq_ok.mp h
    obtain ⟨m, replayed, h⟩ := outcome_bind_eq_ok.mp h
    obtain ⟨_, _, h⟩ := outcome_bind_eq_ok.mp h
    cases h
    obtain ⟨nexts, branched, rfl⟩ := outcome_batchChanges_eq_ok.mp ⟨notices, gathered⟩
    exact ⟨nexts, branched, Context.outcome_replay_eq_ok.mp replayed⟩
  · rintro ⟨nexts, branched, replayed⟩
    obtain ⟨notices, gathered⟩ := outcome_batchChanges_eq_ok.mpr ⟨nexts, branched, rfl⟩
    refine outcome_bind_eq_ok.mpr ⟨_, gathered, outcome_bind_eq_ok.mpr ⟨merged, ?_, ?_⟩⟩
    · exact Context.outcome_replay_eq_ok.mpr replayed
    · exact outcome_bind_eq_ok.mpr ⟨(), rfl, rfl⟩

end Frame

end Tabletop
