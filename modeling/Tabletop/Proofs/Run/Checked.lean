/-
Tabletop.Proofs.Run.Checked — what checking an entry of a model is worth.

`validate_value` builds an object of the model that the value itself names
under `model`, and passes a value that names none. So it checks an entry
against its declared model exactly if the mapping there names that model.
Conversion sees to that where a value is stored whole, unless it names
another model and is no object of the declared one. What else takes the name
away is a write inside the entry: one that names another model, or one that
begins a mapping in the place of null.

  §1 The check of an entry
  §2 Moves that keep the name
  §3 Runs
-/
import Tabletop.Proofs.Context.Labels
import Tabletop.Proofs.Model.Named
import Tabletop.Proofs.Run.Declared
import Tabletop.Proofs.Run.Validated

namespace Tabletop

open Context

/-- The action checks the entry, when carried out on the context. -/
def Action.Checks (a : Action) (c : Context) (space entry : String) : Prop :=
  ∃ written path, Command.ofAction a = .ok (some (.validateValue written))
    ∧ (c.resolvePath written).outcome = .ok path ∧ Path.split path = [space, entry]

/-! ## §1 The check of an entry -/

theorem Value.modelName?_eq_some_iff {v : Value} {model : String} :
    v.modelName? = some model ↔ v.field? "model" = some (.text model) := by
  unfold modelName?
  rw [Option.bind_eq_some_iff]
  constructor
  · rintro ⟨w, hw, text⟩
    cases w <;> cases text
    exact hw
  · exact fun h => ⟨_, h, rfl⟩

namespace Frame

open Traced

variable {f : Frame} {c d : Context} {model s e : String}

/-- A check of a value succeeds exactly if the model that the value names, if any, accepts it. -/
theorem validateValue_ok_iff {written path : String} {v : Value}
    (reads : (c.resolvePath written).outcome = .ok path) (found : c.get path = some v) :
    (∃ d, (f.validateValue c written).outcome = .ok d) ↔
      ∀ model, v.modelName? = some model → f.Accepts model v := by
  unfold validateValue
  cases named : v.modelName? with
  | none =>
    refine iff_of_true ⟨c, outcome_bind_eq_ok.mpr ⟨path, reads, ?_⟩⟩ fun _ h => by cases h
    unfold Value.modelName? at named
    simp only [found, named]
    rfl
  | some model =>
    unfold Value.modelName? at named
    constructor
    · rintro ⟨d, h⟩ other ho
      obtain ⟨p, read, h⟩ := outcome_bind_eq_ok.mp h
      rw [reads] at read
      cases read
      cases ho
      simp only [found, named] at h
      obtain ⟨object, made, _⟩ := outcome_bind_eq_ok.mp h
      exact ⟨object, outcome_made_eq_ok.mp made⟩
    · intro accepted
      obtain ⟨object, made⟩ := accepted model rfl
      refine ⟨c.retag path (.validated model), outcome_bind_eq_ok.mpr ⟨path, reads, ?_⟩⟩
      simp only [found, named]
      exact outcome_bind_eq_ok.mpr ⟨object, outcome_made_eq_ok.mpr made, rfl⟩

/-- An action that checks an entry succeeds exactly if the model that the value there names, if
any, accepts it. -/
theorem check_ok_iff {a : Action} {slot : Slot} (checks : a.Checks c s e)
    (hidden : Entries.get? c.aliases s = none) (hs : c.slot? s e = some slot) :
    (∃ r, (f.runAction a c).outcome = .ok r) ↔
      ∀ model, slot.value.modelName? = some model → f.Accepts model slot.value := by
  obtain ⟨written, path, command, reads, hp⟩ := checks
  rw [← validateValue_ok_iff reads (get_of_slot hp hidden hs)]
  have ran (r : Context × List Notice) : (f.runAction a c).outcome = .ok r ↔
      ∃ d, (f.validateValue c written).outcome = .ok d
        ∧ r = (d, [⟨a.kind, a.payload⟩]) := by
    unfold runAction
    rw [outcome_bind_eq_ok]
    simp only [outcome_ofExcept, command, Except.ok.injEq, exists_eq_left']
    rw [outcome_bind_eq_ok]
    constructor
    · rintro ⟨⟨d, notice⟩, did, h⟩
      obtain ⟨m, checked, did⟩ := outcome_bind_eq_ok.mp (outcome_during_eq_ok.mp did)
      cases did
      cases h
      exact ⟨_, checked, rfl⟩
    · rintro ⟨d, checked, rfl⟩
      refine ⟨(d, ⟨a.kind, a.payload⟩), outcome_during_eq_ok.mpr ?_, rfl⟩
      exact outcome_bind_eq_ok.mpr ⟨d, checked, rfl⟩
  constructor
  · rintro ⟨r, h⟩
    obtain ⟨d, checked, _⟩ := (ran r).mp h
    exact ⟨d, checked⟩
  · rintro ⟨d, checked⟩
    exact ⟨_, (ran _).mpr ⟨d, checked, rfl⟩⟩

/-! ## §2 Moves that keep the name -/

/-- What a move must meet so that a mapping in the entry goes on naming the model. What is written
there whole must name it. What is stored there with conversion must be an object of the model or
name no other one. What is written inside must leave the name alone. And of a batch each action must
leave the entry naming the model, and none may make it a mapping after another one has made it
something else. -/
def KeepsName (f : Frame) (model s e : String) (c : Context) : Move → Prop
  | .write path v => (Path.split path = [s, e] → v.Names model)
      ∧ c.LeavesName model s e (Path.split path) v
  | .store path v => (Path.split path = [s, e] →
        f.Accepts model v ∨ v.field? "model" = none ∨ v.modelName? = some model)
      ∧ ∀ w state, f.flow.coerceFor f.engine.catalog f.engine.make path v = .ok (w, state) →
        c.LeavesName model s e (Path.split path) w
  | .supply field v => ∀ w state, (f.coerceInput field v).outcome = .ok (w, state) →
      c.LeavesName model s e (Path.split s!"inputs.{field.id}") w
  | .batch actions => ∀ nexts, f.Branched c actions nexts → c.InOrder nexts s e
      ∧ ∀ next ∈ nexts, next.EntryIs s e fun slot => slot.value.NamesOnly model
  | _ => True

/-- The entry is declared with a model that is known and whose objects name it, and inputs that are
stored there are of that type. -/
structure DeclaresModel (f : Frame) (s e model : String) : Prop where
  declared : ∃ field, f.flow.declared? s e = some field ∧ field.typeName = model
  not_primitive : isPrimitive model = false
  known : f.engine.make.hasModel model = true
  labels : f.engine.make.Labels model
  sole : f.flow.SoleType s e model

/-- A value names the declared model where it is stored, if it is an object of the model or names no
other one. -/
theorem names_of_stored (model_there : f.DeclaresModel s e model) {path : String} {v w : Value}
    {state : SlotState} (hp : Path.split path = [s, e])
    (own : f.Accepts model v ∨ v.field? "model" = none ∨ v.modelName? = some model)
    (coerced : f.flow.coerceFor f.engine.catalog f.engine.make path v = .ok (w, state)) :
    w.Names model := by
  obtain ⟨field, declared, rfl⟩ := model_there.declared
  unfold Flow.coerceFor at coerced
  simp only [expectedType?_entry hp declared, model_there.not_primitive, model_there.known]
    at coerced
  cases v with
  | mapping fields =>
    simp only [asObject] at coerced
    intro _
    cases made : f.engine.make.instantiate field.typeName (.mapping fields) with
    | ok object =>
      simp only [made] at coerced
      cases coerced
      exact model_there.labels _ _ (Or.inl made)
    | error error =>
      simp only [made] at coerced
      cases coerced
      rw [withModelKey, Value.field?_mapping, Entries.insertNew, Entries.has]
      rcases own with ⟨object, accepted⟩ | unnamed | named
      · rw [made] at accepted
        cases accepted
      · rw [Value.field?_mapping] at unnamed
        rw [unnamed]
        exact Entries.get?_insert_self _ _ _
      · rw [Value.modelName?_eq_some_iff, Value.field?_mapping] at named
        rw [named]
        exact named
  | _ =>
    cases coerced
    rintro ⟨fields, mapping⟩
    cases mapping

/-- An input names the declared model where it is supplied. -/
theorem names_of_supplied (model_there : f.DeclaresModel s e model) {field : FlowField}
    (type : field.typeName = model) {v w : Value} {state : SlotState}
    (coerced : (f.coerceInput field v).outcome = .ok (w, state)) : w.Names model := by
  unfold coerceInput at coerced
  rw [type, model_there.not_primitive, if_neg Bool.false_ne_true, if_pos model_there.known]
    at coerced
  obtain ⟨object, made, coerced⟩ := outcome_bind_eq_ok.mp coerced
  cases coerced
  have made := outcome_made_eq_ok.mp (outcome_during_eq_ok.mp made)
  exact fun _ => model_there.labels _ _ (Or.inr made)

/-- The branches of a batch are regular. -/
theorem Branched.regular {actions : List Action} {nexts : List Context}
    (branched : f.Branched c actions nexts) (h : c.Regular) : ∀ next ∈ nexts, next.Regular := by
  intro next hn
  obtain ⟨_, _, _, ran⟩ := branched.of_mem hn
  exact (effect_of_runAction ran).edits.regular h

/-- A move that keeps the name of the declared model leaves the entry naming it. -/
theorem Makes.names {m : Move} (step : f.Makes c m d)
    (kind : m.IsInitial f.flow ∨ m.IsOf f.flow.allActions)
    (model_there : f.DeclaresModel s e model) (regular : c.Regular)
    (keeps : f.KeepsName model s e c m) (hc : c.EntryIs s e fun slot => slot.value.Names model) :
    d.EntryIs s e fun slot => slot.value.Names model := by
  cases step with
  | write step => exact names_of_write step keeps.1 keeps.2 hc
  | store coerced step =>
    refine names_of_write step (fun hp => ?_) (keeps.2 _ _ coerced) hc
    exact names_of_stored model_there hp (keeps.1 hp) coerced
  | @supply other v w state d coerced step =>
    refine names_of_write step (fun hp => ?_) (keeps w state coerced) hc
    have first : f.flow.declared? "inputs" other.id = some other :=
      kind.resolve_right fun none_such => none_such
    exact names_of_supplied model_there (model_there.sole other first hp) coerced
  | check _ _ _ =>
    unfold Context.retag
    split
    · intro slot hs
      rw [slot?_retagSlot] at hs
      split at hs
      · obtain ⟨old, ho, rfl⟩ := Option.map_eq_some_iff.mp hs
        exact hc old ho
      · exact hc slot hs
    · exact hc
  | batch branched replay =>
    obtain ⟨order, each⟩ := keeps _ branched
    exact (survives_names model s e).merge replay
      (fun next hn => (branched.regular regular next hn).toIndexed) hc each order hc (Or.inl rfl)
  | clear => exact hc

/-! ## §3 Runs -/

/-- A mapping in an entry names the declared model all along a chain of moves that keep the
name. -/
theorem Goes.names {moves : Trail} (chain : f.Goes f.blank moves c)
    (ordinary : f.Ordinary moves) (model_there : f.DeclaresModel s e model)
    (keeps : ∀ x ∈ moves, f.KeepsName model s e x.1 x.2) :
    c.EntryIs s e fun slot => slot.value.Names model := by
  have whole : c.Regular ∧ c.EntryIs s e fun slot => slot.value.Names model := by
    refine chain.preserves
      (P := fun c => c.Regular ∧ c.EntryIs s e fun slot => slot.value.Names model)
      (Q := fun c m => (m.IsInitial f.flow ∨ m.IsOf f.flow.allActions)
        ∧ f.KeepsName model s e c m) ?_ ?_ ?_
    · exact fun x hx => ⟨ordinary x hx, keeps x hx⟩
    · refine ⟨f.regular_blank, ?_⟩
      intro slot hs
      have none_there : f.blank.slot? s e = none := slot?_empty s e
      rw [none_there] at hs
      cases hs
    · rintro c m d ⟨kind, keeps⟩ ⟨regular, hc⟩ step
      exact ⟨step.regular regular, step.names kind model_there regular keeps hc⟩
  exact whole.2

/-- What the check of a declared entry is worth in the context, after the moves. An action that
checks the entry succeeds exactly if the value there is accepted by the model that it names itself,
if any. If the entry is declared with a model and holds a mapping, and every move kept the name,
then that model is the declared one, so the action succeeds exactly if the declared model accepts
the mapping. -/
def ChecksDeclared (f : Frame) (moves : Trail) (c : Context) : Prop :=
  ∀ space entry slot action, space ∈ declaredNames → c.slot? space entry = some slot →
    action.Checks c space entry →
    ((∃ r, (f.runAction action c).outcome = .ok r) ↔
      ∀ model, slot.value.modelName? = some model → f.Accepts model slot.value) ∧
    ∀ model, f.DeclaresModel space entry model →
      (∀ x ∈ moves, f.KeepsName model space entry x.1 x.2) → slot.value.IsMapping →
        slot.value.modelName? = some model ∧
        ((∃ r, (f.runAction action c).outcome = .ok r) ↔ f.Accepts model slot.value)

/-- After a chain of moves of the flow, checks are worth what they should be. -/
theorem Goes.checksDeclared {moves : Trail} (chain : f.Goes f.blank moves c)
    (ordinary : f.Ordinary moves) : f.ChecksDeclared moves c := by
  intro s e slot action here hs checks
  have succeeds := check_ok_iff (f := f) checks (chain.regular.unhidden s here) hs
  refine ⟨succeeds, ?_⟩
  intro model model_there keeps mapping
  have named : slot.value.modelName? = some model := Value.modelName?_eq_some_iff.mpr
    (chain.names ordinary model_there keeps slot hs mapping)
  refine ⟨named, ?_⟩
  rw [succeeds, named]
  simp

/-- What the check of a declared entry is worth in runs. Every run has a trail, the moves that it
has made itself. They are moves of the flow and lead to where the run is, and the moves before each
of them lead to the context on which it is made; and in all these contexts the checks of declared
entries are worth what they should be after the moves that led there. So they are after every chain
of moves of the flow, and chains go on with the moves that actions make, one after another or as a
batch. The objects that a catalog's instantiator makes name their model, unless it has an attribute
`model`. -/
theorem check_enforces_declared_model (f : Frame) :
    (∀ caller inputs s t index c, f.AtBoundary caller inputs s t index c ↔
      ∃ trail, f.HasTrail caller inputs s t index c trail) ∧
    (∀ caller inputs s t index c trail, f.HasTrail caller inputs s t index c trail →
      f.Goes f.blank trail c ∧ f.Ordinary trail ∧ f.ChecksDeclared trail c ∧
      ∀ few d m more, trail = few ++ (d, m) :: more → f.ChecksDeclared few d) ∧
    (∀ actions c own d, f.Acts actions c own d →
      f.Goes c own d ∧ ((∀ a ∈ actions, a ∈ f.flow.allActions) → f.Ordinary own)) ∧
    (∀ r model attributes, f.engine.make = f.engine.catalog.instantiator r →
      f.engine.catalog.attributes? model = some attributes → "model" ∉ Entries.keys attributes →
        f.engine.make.Labels model) ∧
    ∀ moves c, f.Goes f.blank moves c → f.Ordinary moves → f.ChecksDeclared moves c := by
  refine ⟨fun _ _ _ _ _ _ => atBoundary_iff_hasTrail, ?_, ?_, ?_, ?_⟩
  · intro caller inputs s t index c trail own
    obtain ⟨chain, ordinary⟩ := own.goes
    refine ⟨chain, ordinary, chain.checksDeclared ordinary, ?_⟩
    rintro few d m more rfl
    obtain ⟨before, _⟩ := chain.split
    exact before.checksDeclared (List.forall_mem_append.mp ordinary).1
  · exact fun actions c own d acts => ⟨acts.goes, acts.ordinary⟩
  · intro r model attributes standard tree free
    rw [standard]
    exact Catalog.instantiator_labels r tree free
  · exact fun _ _ chain ordinary => chain.checksDeclared ordinary

/-- The action that checks a variable. -/
def checkOf (entry : String) : Action := ⟨"validate_value", .text s!"variables.{entry}"⟩

/-- The entries that the flow `muster` checks. -/
def mustered : List String := ["born", "posed", "turned", "merged"]

/-- A flow that checks four heroes none of which names the model: one begun in the place of null,
one that is given as a goblin, one that becomes a goblin, and one that a batch takes away and
begins anew. -/
def muster : Frame where
  engine := { catalog := { models := [
    ("hero", { id := "hero", attributes := [("hp", .leaf { typeName := "int" })] }),
    ("goblin", { id := "goblin" })] } }
  flow := {
    id := "muster"
    locals := mustered.map fun id => { id := id, typeName := "hero" }
    steps := [{
      id := "enlist"
      typeName := "completion"
      actions := [
        ⟨"set_value", .mapping [("path", .text "variables.born.name"), ("value", .text "Bo")]⟩,
        ⟨"set_value", .mapping [("path", .text "variables.posed"),
          ("value", .mapping [("model", .text "goblin")])]⟩,
        ⟨"set_value", .mapping [("path", .text "variables.turned"),
          ("value", .mapping [("hp", .int 3)])]⟩,
        ⟨"set_value", .mapping [("path", .text "variables.turned.model"),
          ("value", .text "goblin")]⟩,
        ⟨"set_value", .mapping [("path", .text "variables.turned.hp"), ("value", .null)]⟩,
        ⟨"set_value", .mapping [("path", .text "variables.merged"),
          ("value", .mapping [("hp", .int 3)])]⟩] }, {
      id := "merge"
      typeName := "completion"
      parallel := true
      actions := [
        ⟨"set_value", .mapping [("path", .text "variables.merged"), ("value", .null)]⟩,
        ⟨"set_value", .mapping [("path", .text "variables.merged.name"),
          ("value", .text "Mo")]⟩] }, {
      id := "check"
      typeName := "completion"
      actions := mustered.map checkOf }] }
  depth := 0

theorem muster_declares_hero {entry : String} (listed : entry ∈ mustered) :
    muster.DeclaresModel "variables" entry "hero" where
  declared := by
    have types : ∀ entry ∈ mustered,
        (muster.flow.declared? "variables" entry).map (·.typeName) = some "hero" := by decide
    exact Option.map_eq_some_iff.mp (types entry listed)
  not_primitive := by decide
  known := by decide
  labels := by
    have tree : muster.engine.catalog.attributes? "hero"
        = some [("hp", .leaf { typeName := "int" })] := by rfl
    exact Catalog.instantiator_labels _ tree (by decide)
  sole := Flow.soleType_of_ne (by decide)

/-- The flow checks its entries, in every context that reads their paths as they are written. -/
theorem muster_checks {c : Context} {entry : String} (listed : entry ∈ mustered)
    (reads : (c.resolvePath s!"variables.{entry}").outcome = .ok s!"variables.{entry}") :
    checkOf entry ∈ muster.flow.allActions ∧ (checkOf entry).Checks c "variables" entry := by
  have steps : (muster.flow.steps.map (·.actions))[2]? = some (mustered.map checkOf) := by rfl
  have commands : ∀ entry ∈ mustered, Command.ofAction (checkOf entry)
      = .ok (some (.validateValue s!"variables.{entry}")) := by
    simp only [mustered, List.forall_mem_cons]
    exact ⟨by rfl, by rfl, by rfl, by rfl, by simp⟩
  have places : ∀ entry ∈ mustered,
      Path.split s!"variables.{entry}" = ["variables", entry] := by decide +kernel
  obtain ⟨step, there, actions⟩ := List.mem_map.mp (List.mem_of_getElem? steps)
  refine ⟨List.mem_flatMap.mpr ⟨step, there, ?_⟩, _, _, commands entry listed, reads,
    places entry listed⟩
  unfold Step.allActions
  rw [actions]
  exact List.mem_append_left _ (List.mem_append_right _ (List.mem_map_of_mem listed))

/-- The check of a hero that is stored is one for heroes, and it succeeds. -/
theorem muster_checks_stored_hero :
    ∃ c slot, muster.Goes muster.blank
        [(muster.blank, .store "variables.born" (.mapping [("hp", .int 3)]))] c
      ∧ c.slot? "variables" "born" = some slot ∧ slot.value.modelName? = some "hero"
      ∧ ∃ r, (muster.runAction (checkOf "born") c).outcome = .ok r := by
  let object : Value := .mapping [("hp", .int 3), ("model", .text "hero")]
  have coerced : muster.flow.coerceFor muster.engine.catalog muster.engine.make
      "variables.born" (.mapping [("hp", .int 3)]) = .ok (object, .validated "hero") := by rfl
  have step : muster.blank.setTagged "variables.born" object (.validated "hero")
      = .ok (muster.blank.putSlot "variables" "born" ⟨object, .validated "hero"⟩) := by rfl
  have chain := Goes.move (.store coerced step) (.rest _)
  have listed : "born" ∈ mustered := by decide
  have checks := (muster_checks listed (c := muster.blank.putSlot "variables" "born"
    ⟨object, .validated "hero"⟩) (by rfl)).2
  have whole : Path.split "variables.born" = ["variables", "born"] := by rfl
  refine ⟨_, ⟨object, .validated "hero"⟩, chain, by rfl, ?_⟩
  have worth := ((check_enforces_declared_model muster).2.2.2.2 _ _ chain ?_ "variables" "born"
    ⟨object, .validated "hero"⟩ _ (by decide) (by rfl) checks).2 "hero"
    (muster_declares_hero listed) ?_ (Value.isMapping_mapping _)
  · exact ⟨worth.1, worth.2.mpr ⟨⟨"hero", _⟩, by rfl⟩⟩
  · intro x hx
    rw [List.mem_singleton.mp hx]
    exact Or.inr trivial
  · intro x hx
    rw [List.mem_singleton.mp hx]
    refine ⟨fun _ => Or.inr (Or.inl (by rfl)), fun w state _ => ?_⟩
    rw [whole]
    exact leavesName_whole

/-- The flow checks four mappings in entries that are declared as heroes, with success, and none of
them is accepted as a hero. -/
theorem muster_passes_no_heroes :
    ∃ caller inputs s t index c, muster.AtBoundary caller inputs s t index c ∧
      ∀ entry ∈ mustered, ∃ slot,
        muster.DeclaresModel "variables" entry "hero" ∧ c.slot? "variables" entry = some slot ∧
        slot.value.IsMapping ∧ ¬ muster.Accepts "hero" slot.value ∧
        checkOf entry ∈ muster.flow.allActions ∧ (checkOf entry).Checks c "variables" entry ∧
        ∃ r, (muster.runAction (checkOf entry) c).outcome = .ok r := by
  let caller : Caller := fun id _ => Run.fail (.unknownFlow id)
  let run : Run Context := do
    let c ← Run.traced (muster.start [])
    muster.runSteps caller 4 0 c
  -- what the check reads, finds and says is read off the context that the run ends with
  let refused (c : Context) (entry : String) : Bool := (c.slot? "variables" entry).any fun slot =>
    slot.value.kind == .mapping && !(muster.engine.make.instantiate "hero" slot.value).isOk
  let passed (c : Context) (entry : String) : Bool :=
    decide ((c.resolvePath s!"variables.{entry}").outcome.toOption = some s!"variables.{entry}")
      && (muster.runAction (checkOf entry) c).outcome.isOk
  have ends : ((run { host := {} }).1.toOption.any fun c =>
      mustered.all fun entry => refused c entry && passed c entry) = true := by decide +kernel
  obtain ⟨d, t, ran, tested⟩ := Run.exists_of_test ends
  obtain ⟨c, m, begun, ran⟩ := Run.bind_apply_eq_ok ran
  obtain ⟨last, at_end, _⟩ := atBoundary_of_runSteps (.start begun) ran
  refine ⟨caller, [], { host := {} }, t, last, d, at_end, ?_⟩
  intro entry listed
  obtain ⟨refusal, success⟩ := Bool.and_eq_true_iff.mp (List.all_eq_true.mp tested entry listed)
  obtain ⟨reads, success⟩ := Bool.and_eq_true_iff.mp success
  obtain ⟨slot, there, refusal⟩ := (Option.any_eq_true _ _).mp refusal
  rw [Bool.and_eq_true, beq_iff_eq] at refusal
  have reads : (d.resolvePath s!"variables.{entry}").outcome = .ok s!"variables.{entry}" := by
    have read := of_decide_eq_true reads
    cases path : (d.resolvePath s!"variables.{entry}").outcome with
    | error failure =>
      rw [path] at read
      cases read
    | ok p =>
      rw [path] at read
      exact congrArg Except.ok (Option.some.inj read)
  obtain ⟨own, checks⟩ := muster_checks listed reads
  refine ⟨slot, muster_declares_hero listed, there, ?_, ?_, own, checks, ?_⟩
  · cases hv : slot.value with
    | mapping fields => exact Value.isMapping_mapping fields
    | _ =>
      rw [hv] at refusal
      cases refusal.1
  · rintro ⟨object, made⟩
    rw [made] at refusal
    cases refusal.2
  · cases checked : (muster.runAction (checkOf entry) d).outcome with
    | error failure =>
      rw [checked] at success
      cases success
    | ok r => exact ⟨r, rfl⟩

end Frame

end Tabletop
