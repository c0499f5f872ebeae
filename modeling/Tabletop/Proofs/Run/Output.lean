/-
Tabletop.Proofs.Run.Output — the outputs of a run.

A run that succeeds returns its outputs from the context that it ends with.
An output of a primitive type is null or a value of exactly that type, and
one that is to be a valid object is null or the object that its model makes
of what is stored. What `set_value` stores in the entry of a primitive output
is converted then, and converting it once more changes nothing: as long as
nothing else is written there, it is returned as it is. In a batch that needs
care, since a merge writes what differs from the base: an action that stores
what the base holds already does not take back what an action before it has
written there.

  §1 Extraction
  §2 Moves that write an entry
  §3 Entries that were set last
  §4 Runs
-/
import Tabletop.Proofs.Context.Rewrite
import Tabletop.Proofs.Run.Declared
import Tabletop.Proofs.Traversal

namespace Tabletop

open Context

namespace Frame

variable {f : Frame} {c d : Context} {s e : String}

/-! ## §1 Extraction -/

/-- What an output of the declaration returns for the value that is stored: null for null only. A
type that is named like a primitive one is that type. -/
structure Returns (f : Frame) (field : FlowField) (stored w : Value) : Prop where
  primitive : ∀ p, Primitive.named? field.typeName = some p →
    stored = .null ∧ w = .null ∨ p.isExact w = true
  object : Primitive.named? field.typeName = none → field.validate = true →
    f.engine.make.hasModel field.typeName = true →
      stored = .null ∧ w = .null ∨ ∃ object, f.engine.make.instantiate field.typeName
        (withModelKey stored field.typeName) = .ok object ∧ w = object.value

/-- An output of a primitive type is converted. -/
theorem coerceOutput_primitive (default : f.engine.make.coerce = coercePrimitive) {id : String}
    {field : FlowField} (declared : f.flow.declared? "outputs" id = some field) {p : Primitive}
    (named : Primitive.named? field.typeName = some p) (v : Value) :
    f.coerceOutput id v = (coercePrimitive v field.typeName).mapError fun error =>
      .within (.output id) (.instantiation error) := by
  unfold coerceOutput
  cases v with
  | null => rfl
  | _ => simp only [Value.isNull, declared, isPrimitive_of_named named, default, if_true,
      Bool.false_eq_true, if_false]

/-- An output is returned as its declaration says. -/
theorem returns_of_coerceOutput (default : f.engine.make.coerce = coercePrimitive) {id : String}
    {field : FlowField} (declared : f.flow.declared? "outputs" id = some field) {v w : Value}
    (h : f.coerceOutput id v = .ok w) : f.Returns field v w where
  primitive := by
    intro p named
    by_cases hv : v = .null
    · subst hv
      cases h
      exact Or.inl ⟨rfl, rfl⟩
    · rw [coerceOutput_primitive default declared named] at h
      cases hw : coercePrimitive v field.typeName with
      | ok u =>
        rw [hw] at h
        cases h
        exact Or.inr (Primitive.isExact_of_convert? ((coercePrimitive_eq_ok_iff named hv).mp hw))
      | error error =>
        rw [hw] at h
        cases h
  object := by
    intro not_primitive validate known
    have not_primitive : isPrimitive field.typeName = false := by rw [isPrimitive, not_primitive]; rfl
    cases v with
    | null =>
      cases h
      exact Or.inl ⟨rfl, rfl⟩
    | _ =>
      unfold coerceOutput at h
      simp only [Value.isNull, declared, not_primitive, validate, known, Bool.false_eq_true,
        if_false, Bool.and_self, if_true] at h
      split at h
      · rename_i object made
        cases h
        exact Or.inr ⟨object, made, rfl⟩
      · cases h

/-- A failure of an output names it. -/
theorem place_of_coerceOutput {id : String} {v : Value} {failure : Failure}
    (h : f.coerceOutput id v = .error failure) :
    ∃ inner, failure = .within (.output id) inner := by
  unfold coerceOutput at h
  split at h
  · cases h
  · split at h
    · cases h
    · rename_i field _
      split at h
      · cases made : f.engine.make.coerce v field.typeName with
        | ok w =>
          rw [made] at h
          cases h
        | error error =>
          rw [made] at h
          cases h
          exact ⟨_, rfl⟩
      · split at h
        · split at h
          · cases h
          · cases h
            exact ⟨_, rfl⟩
        · cases h

/-- The entries that are listed in a namespace are those that are there. -/
theorem mem_entries_iff (hc : c.Indexed) {k : String} {v : Value} :
    (k, v) ∈ c.entries s ↔ ∃ slot, c.slot? s k = some slot ∧ slot.value = v := by
  unfold Context.entries
  constructor
  · intro listed
    obtain ⟨⟨key, slot⟩, there, equal⟩ := List.mem_map.mp listed
    cases equal
    cases hs : Entries.get? c.spaces s with
    | none =>
      rw [hs] at there
      exact absurd there List.not_mem_nil
    | some slots =>
      rw [hs] at there
      exact ⟨slot, slot?_eq_some_iff.mpr ⟨slots, hs, (hc.slots hs).get?_of_mem there⟩, rfl⟩
  · rintro ⟨slot, hs, rfl⟩
    obtain ⟨slots, hs, hk⟩ := slot?_eq_some_iff.mp hs
    rw [hs]
    exact List.mem_map.mpr ⟨(k, slot), Entries.mem_of_get? hk, rfl⟩

/-- The outputs are what is returned for the entries. -/
theorem mem_outputs_iff (hc : c.Indexed) {outputs : Fields} (h : f.outputs c = .ok outputs)
    {k : String} {w : Value} :
    (k, w) ∈ outputs
      ↔ ∃ slot, c.slot? "outputs" k = some slot ∧ f.coerceOutput k slot.value = .ok w := by
  have returned : ∀ id v, ((f.coerceOutput id v).map fun u => (id, u)) = .ok (k, w)
      ↔ id = k ∧ f.coerceOutput id v = .ok w := by
    intro id v
    cases f.coerceOutput id v <;> simp [Except.map]
  rw [mem_of_mapM h]
  constructor
  · rintro ⟨⟨id, v⟩, listed, paired⟩
    obtain ⟨rfl, one⟩ := (returned id v).mp paired
    obtain ⟨slot, hs, rfl⟩ := (mem_entries_iff hc).mp listed
    exact ⟨slot, hs, one⟩
  · rintro ⟨slot, hs, one⟩
    exact ⟨(k, slot.value), (mem_entries_iff hc).mpr ⟨slot, hs, rfl⟩,
      (returned k slot.value).mpr ⟨rfl, one⟩⟩

/-- If the outputs cannot be extracted, that is because of the entry that the failure names. -/
theorem exists_of_outputs_error (hc : c.Indexed) {failure : Failure}
    (h : f.outputs c = .error failure) :
    ∃ k slot inner, c.slot? "outputs" k = some slot ∧ f.coerceOutput k slot.value = .error failure
      ∧ failure = .within (.output k) inner := by
  obtain ⟨⟨k, v⟩, listed, fails⟩ := exists_of_mapM_error h
  obtain ⟨slot, hs, rfl⟩ := (mem_entries_iff hc).mp listed
  have fails : f.coerceOutput k slot.value = .error failure := by
    cases ho : f.coerceOutput k slot.value with
    | ok w =>
      simp only [ho] at fails
      cases fails
    | error other =>
      simp only [ho] at fails
      cases fails
      rfl
  obtain ⟨inner, names⟩ := place_of_coerceOutput fails
  exact ⟨k, slot, inner, hs, fails, names⟩

/-! ## §2 Moves that write an entry -/

/-- The move writes the entry or inside it. A batch does so if one of its actions changes the value
there: the merge writes nothing else. -/
def WritesTo (f : Frame) (s e : String) (c : Context) : Move → Prop
  | .write path _ => ∃ rest, Path.split path = s :: e :: rest
  | .store path _ => ∃ rest, Path.split path = s :: e :: rest
  | .supply field _ => ∃ rest, Path.split s!"inputs.{field.id}" = s :: e :: rest
  | .batch actions => ∃ nexts, f.Branched c actions nexts ∧ ∃ next ∈ nexts, c.Rewrites next s e
  | _ => False

/-- A move that does not write an entry leaves its value. -/
theorem Makes.stored?_of_spared {m : Move} (step : f.Makes c m d) (spared : ¬ f.WritesTo s e c m) :
    d.stored? [s, e] = c.stored? [s, e] := by
  have elsewhere : ∀ {p : Path}, (¬ ∃ rest, p = s :: e :: rest) → ∀ rest, p ≠ s :: e :: rest :=
    fun none_such rest here => none_such ⟨rest, here⟩
  cases step with
  | write step => exact stored?_write_elsewhere step (elsewhere spared)
  | store _ step => exact stored?_write_elsewhere step (elsewhere spared)
  | supply _ step => exact stored?_write_elsewhere step (elsewhere spared)
  | check _ _ _ =>
    unfold Context.retag
    split
    · exact stored?_retagSlot ..
    · rfl
  | batch branched replay =>
    exact stored?_merge_of_spared replay fun next hn rewrites =>
      spared ⟨_, branched, next, hn, rewrites⟩
  | clear => rfl

/-! ## §3 Entries that were set last -/

/-- The move, made on the context, sets the entry: a value is stored there with conversion, alone
or in a batch. In a batch, no action after the one that sets the entry changes it; and either that
one's own value differs from what the base holds, or no action before it changes the entry either.
-/
inductive Fills (f : Frame) (s e : String) (c : Context) : Move → Prop
  | alone {path : String} {v : Value} (whole : Path.split path = [s, e]) :
      Fills f s e c (.store path v)
  | together {few more : List Action} {a : Action} {path : String} {notices : List Notice}
      {firsts rest : List Context} {next : Context} (sets : a.Sets c path)
      (whole : Path.split path = [s, e]) (before : f.Branched c few firsts)
      (ran : (f.runAction a c).outcome = .ok (next, notices)) (after : f.Branched c more rest)
      (last : c.LastToRewrite firsts next rest s e) : Fills f s e c (.batch (few ++ a :: more))

/-- Of the moves, the last one to write to the entry sets it. -/
def SetLast (f : Frame) (s e : String) (moves : Trail) : Prop :=
  ∃ few c m more, moves = few ++ (c, m) :: more ∧ f.Fills s e c m
    ∧ ∀ x ∈ more, ¬ f.WritesTo s e x.1 x.2

variable {field : FlowField} {p : Primitive}

/-- What is stored in an entry of a primitive type is converted into itself. -/
theorem slot?_of_stored (default : f.engine.make.coerce = coercePrimitive)
    (declared : f.flow.declared? s e = some field)
    (named : Primitive.named? field.typeName = some p) {path : String} {v w : Value}
    {state : SlotState} (whole : Path.split path = [s, e])
    (coerced : f.flow.coerceFor f.engine.catalog f.engine.make path v = .ok (w, state))
    (step : c.setTagged path w state = .ok d) :
    ∃ w, d.slot? s e = some ⟨w, .plain⟩ ∧ coercePrimitive w field.typeName = .ok w := by
  unfold Flow.coerceFor at coerced
  simp only [expectedType?_entry whole declared, isPrimitive_of_named named, default] at coerced
  unfold Context.setTagged at step
  rw [whole, write_slot] at step
  cases step
  cases hw : coercePrimitive v field.typeName with
  | error error =>
    simp only [hw] at coerced
    cases coerced
  | ok u =>
    simp only [hw] at coerced
    cases coerced
    refine ⟨_, ?_, coercePrimitive_idem named hw⟩
    rw [slot?_putSlot, if_pos ⟨rfl, rfl⟩]

/-- What is converted into itself is no mapping. -/
theorem not_isMapping_of_coerced (named : Primitive.named? field.typeName = some p) {w : Value}
    (h : coercePrimitive w field.typeName = .ok w) : ¬ w.IsMapping := by
  rintro ⟨fields, rfl⟩
  rcases isExact_of_coercePrimitive named h with null | exact_type
  · cases null
  · cases p <;> cases exact_type

/-- A move that sets an entry of a primitive type leaves a value there that is converted into
itself. -/
theorem Makes.stored_of_fills {m : Move} (step : f.Makes c m d) (fills : f.Fills s e c m)
    (regular : c.Regular) (default : f.engine.make.coerce = coercePrimitive)
    (declared : f.flow.declared? s e = some field)
    (named : Primitive.named? field.typeName = some p) :
    ∃ v, d.stored? [s, e] = some v ∧ coercePrimitive v field.typeName = .ok v := by
  cases fills with
  | alone whole =>
    cases step with
    | store coerced step =>
      obtain ⟨w, hs, fixed⟩ := slot?_of_stored default declared named whole coerced step
      exact ⟨w, by rw [stored?_entry, hs]; rfl, fixed⟩
  | together sets whole before ran after last =>
    cases step with
    | batch branched replay =>
      obtain ⟨v, u, state, coerced, set⟩ := stored_of_sets sets ran
      obtain ⟨w, hs, fixed⟩ := slot?_of_stored default declared named whole coerced set
      have listed := branched.unique (List.rel_append before (.cons ⟨_, ran⟩ after))
      rw [listed] at replay
      have indexed := ((effect_of_runAction ran).edits.regular regular).toIndexed
      obtain ⟨v, stored, rfl | same⟩ := stored?_merge_of_last indexed replay last hs
        (not_isMapping_of_coerced named fixed)
      · exact ⟨_, stored, fixed⟩
      · exact ⟨v, stored, coercePrimitive_of_same named same fixed⟩

/-- An entry that no move writes to keeps its value. -/
theorem Goes.stored?_of_spared {moves : Trail} (h : f.Goes c moves d)
    (spared : ∀ x ∈ moves, ¬ f.WritesTo s e x.1 x.2) : d.stored? [s, e] = c.stored? [s, e] :=
  h.preserves (Q := fun x m => ¬ f.WritesTo s e x m)
    (P := fun x => x.stored? [s, e] = c.stored? [s, e]) spared rfl
    fun _ _ _ quiet same step => (step.stored?_of_spared quiet).trans same

/-- An entry of a primitive type that was set last holds a value that is converted into itself. -/
theorem Goes.stored_of_setLast {moves : Trail} (chain : f.Goes f.blank moves c)
    (set_last : f.SetLast s e moves) (default : f.engine.make.coerce = coercePrimitive)
    (declared : f.flow.declared? s e = some field)
    (named : Primitive.named? field.typeName = some p) :
    ∃ v, c.stored? [s, e] = some v ∧ coercePrimitive v field.typeName = .ok v := by
  obtain ⟨few, b, m, more, rfl, fills, spared⟩ := set_last
  obtain ⟨before, since⟩ := chain.split
  cases since with
  | move step others =>
    rw [others.stored?_of_spared spared]
    exact step.stored_of_fills fills before.regular default declared named

/-- The extraction of outputs does not fail on the entry, and returns what is stored there. -/
def Extracts (f : Frame) (c : Context) (k : String) : Prop :=
  ∃ slot, c.slot? "outputs" k = some slot
    ∧ (∀ inner, f.outputs c ≠ .error (.within (.output k) inner))
    ∧ ∀ outputs, f.outputs c = .ok outputs → ∀ w, (k, w) ∈ outputs ↔ w = slot.value

/-- An output of a primitive type that was set last is extracted as it is stored. -/
theorem Goes.extracts {moves : Trail} {k : String} (chain : f.Goes f.blank moves c)
    (default : f.engine.make.coerce = coercePrimitive)
    (declared : f.flow.declared? "outputs" k = some field)
    (named : Primitive.named? field.typeName = some p) (set_last : f.SetLast "outputs" k moves) :
    f.Extracts c k := by
  obtain ⟨v, stored, fixed⟩ := chain.stored_of_setLast set_last default declared named
  have indexed := chain.regular.toIndexed
  rw [stored?_slot, Option.map_eq_some_iff] at stored
  obtain ⟨slot, hs, rfl⟩ := stored
  have returned : f.coerceOutput k slot.value = .ok slot.value := by
    rw [coerceOutput_primitive default declared named, fixed]
    rfl
  refine ⟨slot, hs, ?_, ?_⟩
  · intro inner failed
    obtain ⟨_, other, _, there, fails, names⟩ := exists_of_outputs_error indexed failed
    cases names
    rw [hs] at there
    cases there
    rw [returned] at fails
    cases fails
  · intro outputs extracted w
    rw [mem_outputs_iff indexed extracted]
    simp only [hs, Option.some.injEq, exists_eq_left', returned, Except.ok.injEq]
    exact eq_comm

end Frame

/-! ## §4 Runs -/

namespace Engine

open Tabletop.Frame

/-- The outputs of runs. A run that succeeds extracts its outputs from the context at its last
boundary, each from the entry of its name and as its declaration says. And to every boundary of a
run leads its trail, the moves that it has made itself. If the last one of these to write to an
output of a primitive type has set it, the extraction does not fail on it and returns what is
stored there. The same holds after every chain of moves. -/
theorem execute_outputs_typed (e : Engine) (default : e.make.coerce = coercePrimitive) :
    (∀ host id inputs outputs, (e.execute host id inputs).result = .ok outputs →
      ∃ flow t last c, e.catalog.flow? id = some flow
        ∧ AtBoundary ⟨e, flow, 0⟩ (e.runFlow e.config.maxFlowDepth 1) inputs { host } t last c
        ∧ flow.steps[last]? = none ∧ Frame.outputs ⟨e, flow, 0⟩ c = .ok outputs
        ∧ ∀ k w, (k, w) ∈ outputs → ∃ slot, c.slot? "outputs" k = some slot
          ∧ ∀ field, flow.declared? "outputs" k = some field →
            Returns ⟨e, flow, 0⟩ field slot.value w) ∧
    (∀ flow depth caller inputs s t index c,
      AtBoundary ⟨e, flow, depth⟩ caller inputs s t index c ↔
        ∃ trail, HasTrail ⟨e, flow, depth⟩ caller inputs s t index c trail) ∧
    (∀ flow depth caller inputs s t index c trail,
      HasTrail ⟨e, flow, depth⟩ caller inputs s t index c trail →
        Goes ⟨e, flow, depth⟩ (blank ⟨e, flow, depth⟩) trail c
        ∧ Ordinary ⟨e, flow, depth⟩ trail
        ∧ ∀ k field p, flow.declared? "outputs" k = some field →
          Primitive.named? field.typeName = some p → SetLast ⟨e, flow, depth⟩ "outputs" k trail →
            Extracts ⟨e, flow, depth⟩ c k) ∧
    ∀ flow depth moves c, Goes ⟨e, flow, depth⟩ (blank ⟨e, flow, depth⟩) moves c →
      ∀ k field p, flow.declared? "outputs" k = some field →
        Primitive.named? field.typeName = some p → SetLast ⟨e, flow, depth⟩ "outputs" k moves →
          Extracts ⟨e, flow, depth⟩ c k := by
  refine ⟨?_, fun _ _ _ _ _ _ _ _ => atBoundary_iff_hasTrail, ?_, ?_⟩
  · intro host id inputs outputs succeeded
    have ran : e.runFlow (e.config.maxFlowDepth + 1) 0 id inputs { host } = (.ok outputs, _) :=
      Prod.ext succeeded rfl
    cases found : e.catalog.flow? id with
    | none =>
      rw [runFlow, found] at ran
      cases ran
    | some flow =>
      rw [runFlow, found] at ran
      obtain ⟨t, last, c, at_end, ended, extracted⟩ := atBoundary_of_runFrame ran
      refine ⟨flow, t, last, c, rfl, at_end, ended, extracted, ?_⟩
      intro k w hw
      obtain ⟨slot, hs, returned⟩ := (mem_outputs_iff at_end.regular.toIndexed extracted).mp hw
      exact ⟨slot, hs, fun field declared => returns_of_coerceOutput default declared returned⟩
  · intro flow depth caller inputs s t index c trail own
    obtain ⟨chain, ordinary⟩ := own.goes
    exact ⟨chain, ordinary, fun k field p declared named set_last =>
      chain.extracts default declared named set_last⟩
  · intro flow depth moves c chain k field p declared named set_last
    exact chain.extracts default declared named set_last

/-- The action that sets the score of a game. -/
def setScore : Action :=
  ⟨"set_value", .mapping [("path", .text "outputs.score"), ("value", .text "5")]⟩

/-- The action that exchanges the score and a note. -/
def swapScore : Action :=
  ⟨"swap_values", .mapping [("path1", .text "outputs.score"), ("path2", .text "variables.note")]⟩

/-- The step that sets the score and writes a note. -/
def prepare : Step where
  id := "prepare"
  typeName := "completion"
  actions := [setScore,
    ⟨"set_value", .mapping [("path", .text "variables.note"), ("value", .text "abc")]⟩]

/-- The step that, in one batch, exchanges the score and the note and sets the score again. -/
def finish : Step where
  id := "finish"
  typeName := "completion"
  parallel := true
  actions := [swapScore, setScore]

/-- A flow of both steps. -/
def tallying : Flow where
  id := "tally"
  outputs := [{ id := "score", typeName := "int" }]
  locals := [{ id := "note", typeName := "str" }]
  steps := [prepare, finish]

/-- The flow, and one of the first step only. -/
def tally : Engine where
  catalog := { flows := [("tally", tallying),
    ("count", { tallying with id := "count", steps := [prepare] })] }

/-- The path of the score is written without templates. -/
theorem setScore_sets {c : Context}
    (h : (c.resolvePath "outputs.score").outcome.toOption = some "outputs.score") :
    setScore.Sets c "outputs.score" := by
  exact ⟨"outputs.score", .text "5", by rfl, eq_ok_of_toOption h⟩

/-- The score is returned as a whole number, and after it was set by its action the extraction does
not fail on it. -/
theorem tally_returns_score :
    (∃ outputs w, (tally.execute {} "count" []).result = .ok outputs ∧ ("score", w) ∈ outputs
      ∧ (w = .null ∨ Primitive.int.isExact w = true) ∧ w.asInt64? = some 5) ∧
    ∃ c, Acts ⟨tally, tallying, 0⟩ [setScore] (blank ⟨tally, tallying, 0⟩)
        (movesOf ⟨tally, tallying, 0⟩ [setScore] (blank ⟨tally, tallying, 0⟩)) c
      ∧ Extracts ⟨tally, tallying, 0⟩ c "score" := by
  obtain ⟨succeeds, _, _, extracts⟩ := execute_outputs_typed tally rfl
  constructor
  · have ends : ((tally.execute {} "count" []).result.toOption.bind fun outputs =>
        (Entries.get? outputs "score").bind Value.asInt64?) = some 5 := by decide +kernel
    cases ran : (tally.execute {} "count" []).result with
    | error stop =>
      rw [ran] at ends
      cases ends
    | ok outputs =>
      rw [ran] at ends
      change ((Entries.get? outputs "score").bind Value.asInt64?) = some 5 at ends
      obtain ⟨w, hw, five⟩ := Option.bind_eq_some_iff.mp ends
      have hw : ("score", w) ∈ outputs := Entries.mem_of_get? hw
      obtain ⟨flow, t, last, c, found, _, _, _, typed⟩ := succeeds _ _ _ _ ran
      cases found
      obtain ⟨slot, _, returned⟩ := typed "score" w hw
      have exact_or_null := (returned _ rfl).primitive .int rfl
      exact ⟨outputs, w, rfl, hw, exact_or_null.imp_left And.right, five⟩
  · let f : Frame := ⟨tally, tallying, 0⟩
    have ends : (f.runActions [setScore] f.blank).outcome.isOk = true := by decide +kernel
    cases ran : (f.runActions [setScore] f.blank).outcome with
    | error failure =>
      rw [ran] at ends
      cases ends
    | ok made =>
      have acts := Acts.inTurn ran
      have sets : setScore.Sets f.blank "outputs.score" := setScore_sets (by decide +kernel)
      obtain ⟨m, notices, one, _⟩ := outcome_runActions_cons ran
      obtain ⟨v, first⟩ := moves_of_sets sets one
      have set_last : f.SetLast "outputs" "score" (f.movesOf [setScore] f.blank) := by
        refine ⟨[], f.blank, .store "outputs.score" v, [], ?_, .alone (by rfl), ?_⟩
        · rw [movesOf, one, first]
          rfl
        · exact fun _ none => absurd none List.not_mem_nil
      exact ⟨made, acts, extracts _ _ _ _ acts.goes _ _ .int (by rfl) (by rfl) set_last⟩

/-- The output that the extraction fails on. -/
def failedOutput? : Except Failure Fields → Option String
  | .error (.within (.output id) _) => some id
  | _ => none

theorem exists_of_failedOutput? {outcome : Except Failure Fields} {id : String}
    (h : failedOutput? outcome = some id) :
    ∃ inner, outcome = .error (.within (.output id) inner) := by
  unfold failedOutput? at h
  split at h
  · cases h
    exact ⟨_, rfl⟩
  · cases h

/-- The kind of failure that a run stops with. -/
def failedKind? : Except Stop Fields → Option FailureKind
  | .error (.failed error) => some error.failure.kind
  | _ => none

/-- The last action of the batch sets the score, and the extraction fails on it: the batch has kept
the note that the action before has written there, as the score was the same before. -/
theorem tally_fails_on_score :
    let f : Frame := ⟨tally, tallying, 0⟩
    ∃ caller t c d, f.AtBoundary caller [] { host := {} } t 1 c
      ∧ setScore.Sets c "outputs.score" ∧ Path.split "outputs.score" = ["outputs", "score"]
      ∧ (f.runBatch finish.actions c).outcome = .ok d
      ∧ (∃ inner, f.outputs d = .error (.within (.output "score") inner))
      ∧ ∃ error, (tally.execute {} "tally" []).result = .error (.failed error)
          ∧ error.failure.kind = .coercion := by
  intro f
  let caller : Caller := fun id _ => Run.fail (.unknownFlow id)
  let run : Run ((Context × Nat) × Context) := do
    let c ← Run.traced (f.start [])
    let x ← (f.advance caller prepare 0 c).atStep prepare.id
    let d ← Run.traced (f.runBatch finish.actions x.1)
    pure (x, d)
  let fails (y : (Context × Nat) × Context) : Bool := decide (y.1.2 = 1
    ∧ (y.1.1.resolvePath "outputs.score").outcome.toOption = some "outputs.score"
    ∧ failedOutput? (f.outputs y.2) = some "score")
  have ends : ((run { host := {} }).1.toOption.any fails) = true := by decide +kernel
  obtain ⟨⟨⟨c, next⟩, d⟩, t, ran, wrong⟩ := Run.exists_of_test ends
  obtain ⟨rfl, resolved, failed⟩ := of_decide_eq_true wrong
  obtain ⟨c₀, s, begun, ran⟩ := Run.bind_apply_eq_ok ran
  obtain ⟨⟨c₁, i⟩, u, done, ran⟩ := Run.bind_apply_eq_ok ran
  obtain ⟨d₁, v, merged, ran⟩ := Run.bind_apply_eq_ok ran
  cases ran
  have at_finish : f.AtBoundary caller [] { host := {} } u 1 c :=
    (AtBoundary.start begun).step (by rfl) done
  have stops : failedKind? (tally.execute {} "tally" []).result = some .coercion := by
    decide +kernel
  refine ⟨caller, u, c, d, at_finish, setScore_sets resolved, by rfl,
    Run.gives_traced ⟨_, _, merged⟩, exists_of_failedOutput? failed, ?_⟩
  unfold failedKind? at stops
  split at stops
  · rename_i error result
    exact ⟨error, result, Option.some.inj stops⟩
  · cases stops

end Engine

end Tabletop
