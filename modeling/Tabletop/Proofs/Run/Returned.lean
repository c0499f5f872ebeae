/-
Tabletop.Proofs.Run.Returned — what becomes of the declared outputs.

Before its first step a flow stores a null for every declared output, at the
path that the id makes. Entries are never removed, so an id that is read as
it is written is a key of what the run returns. Any other id is trimmed or
split on the way: its null lands in an entry of another name, or inside one.
A null stays until something is written there, by a move of the run or as
the null of an output that is declared later and goes into the entry.

  §1 Keys
  §2 Nulls
  §3 The first context
  §4 Runs
-/
import Tabletop.Proofs.Run.Output

namespace Tabletop

open Context

/-! ## §1 Keys -/

namespace Frame

variable {f : Frame} {c d : Context} {key : String}

/-- A traversal that keeps the keys of the elements gives a list of these keys. -/
theorem keys_of_mapM {α β : Type} {g : String × α → Except Failure (String × β)}
    {xs : Entries α} {ys : Entries β} (keeps : ∀ x y, g x = .ok y → y.1 = x.1)
    (h : xs.mapM g = .ok ys) : Entries.keys ys = Entries.keys xs := by
  induction mapM_eq_ok_iff.mp h with
  | nil => rfl
  | cons first others ih =>
    exact congrArg₂ List.cons (keeps _ _ first) (ih (mapM_eq_ok_iff.mpr others))

/-- Every entry is returned under its name. -/
theorem keys_outputs {outputs : Fields} (h : f.outputs c = .ok outputs) :
    Entries.keys outputs = Entries.keys (c.entries "outputs") := by
  refine keys_of_mapM ?_ h
  intro x y hy
  change (f.coerceOutput x.1 x.2).map (fun w => (x.1, w)) = .ok y at hy
  cases hw : f.coerceOutput x.1 x.2 with
  | error failure =>
    rw [hw] at hy
    cases hy
  | ok w =>
    rw [hw] at hy
    cases hy
    rfl

theorem keys_entries (c : Context) (space : String) :
    Entries.keys (c.entries space) = Entries.keys ((Entries.get? c.spaces space).getD []) := by
  simp [Context.entries, Entries.keys, Function.comp_def]

/-- The keys of the outputs are the entries that are there. -/
theorem mem_keys_outputs_iff {outputs : Fields} (h : f.outputs c = .ok outputs) :
    key ∈ Entries.keys outputs ↔ (c.stored? ["outputs", key]).isSome = true := by
  rw [keys_outputs h, keys_entries, ← Entries.isSome_get?_iff, get?_getD_nil, stored?_slot,
    Option.isSome_map]
  rfl

/-- A null is returned as it is. -/
theorem get?_outputs_of_null (hc : c.Indexed) {outputs : Fields} (h : f.outputs c = .ok outputs)
    (null : c.stored? ["outputs", key] = some .null) :
    Entries.get? outputs key = some .null := by
  rw [stored?_slot, Option.map_eq_some_iff] at null
  obtain ⟨slot, hs, hv⟩ := null
  have returned : (key, .null) ∈ outputs := by
    refine (mem_outputs_iff hc h).mpr ⟨slot, hs, ?_⟩
    rw [hv]
    rfl
  have distinct : Entries.NodupKeys outputs := by
    unfold Entries.NodupKeys
    rw [keys_outputs h, keys_entries]
    cases hs : Entries.get? c.spaces "outputs" with
    | none => exact Entries.nodupKeys_nil
    | some slots => exact hc.slots hs
  exact distinct.get?_of_mem returned

end Frame

/-! ## §2 Nulls -/

/-- Going into a value leaves no null there. -/
theorem Context.ne_null_of_writeAt {path segment : String} {new v w : Value} {passed rest : Path}
    (h : Context.writeAt path new passed v (segment :: rest) = .ok w) : w ≠ .null := by
  rintro rfl
  unfold Context.writeAt at h
  split at h
  · rename_i fields _
    cases inner : Context.writeAt path new (passed ++ [segment])
        ((Entries.get? fields segment).getD (.mapping [])) rest with
    | error error =>
      rw [inner] at h
      cases h
    | ok u =>
      rw [inner] at h
      cases h
  · rename_i items _
    split at h
    · cases h
    · split at h
      · cases h
      · rename_i item _
        cases inner : Context.writeAt path new (passed ++ [segment]) item rest with
        | error error =>
          rw [inner] at h
          cases h
        | ok u =>
          rw [inner] at h
          cases h
  · cases h

/-- A null that is written into an entry makes it null if it is the entry itself that is written. -/
theorem Context.stored?_write_null {c d : Context} {state : SlotState} {s e : String} {rest : Path}
    (h : c.write state .null (s :: e :: rest) = .ok d) :
    ∃ w, d.stored? [s, e] = some w ∧ (w = .null ↔ rest = []) := by
  cases rest with
  | nil =>
    rw [write_slot] at h
    cases h
    refine ⟨.null, ?_, by simp⟩
    rw [stored?_slot, slot?_putSlot, if_pos ⟨rfl, rfl⟩]
    rfl
  | cons segment rest =>
    rw [write_below] at h
    cases hw : writeAt (Path.join (s :: e :: segment :: rest)) .null [s, e]
        (c.opened s e).value (segment :: rest) with
    | error error =>
      rw [hw] at h
      cases h
    | ok w =>
      rw [hw] at h
      cases h
      refine ⟨w, ?_, by simp [ne_null_of_writeAt hw]⟩
      rw [stored?_slot, slot?_putSlot, if_pos ⟨rfl, rfl⟩]
      rfl

/-- Where the null of a declared output is stored. -/
def FlowField.outputPath (d : FlowField) : Path := Path.split s!"outputs.{d.id}"

/-- It is stored in the entry of the name, or inside it. -/
def FlowField.goesInto (key : String) (d : FlowField) : Bool :=
  ["outputs", key].isPrefixOf d.outputPath

/-- Of the outputs that go into the entry, the one that is declared last. -/
def Flow.lastInto? (flow : Flow) (key : String) : Option FlowField :=
  flow.outputs.findRev? (FlowField.goesInto key)

theorem FlowField.goesInto_iff {d : FlowField} {key : String} :
    d.goesInto key = true ↔ ∃ rest, d.outputPath = "outputs" :: key :: rest := by
  rw [goesInto, List.isPrefixOf_iff_prefix]
  constructor
  · rintro ⟨rest, same⟩
    exact ⟨rest, same.symm⟩
  · rintro ⟨rest, same⟩
    exact ⟨rest, same.symm⟩

/-- An id that is read as it is written is the name of its entry, and no other id is. -/
theorem FlowField.outputPath_eq_iff {d : FlowField} :
    d.outputPath = ["outputs", d.id] ↔ Path.IsBare d.id := by
  have word : (s!"outputs.{d.id}").toList = "outputs".toList ++ '.' :: d.id.toList := by
    simp [toString]
  exact Path.split_below_eq_iff (by decide) (by decide) word

theorem Flow.isSome_lastInto?_iff {flow : Flow} {key : String} :
    (flow.lastInto? key).isSome = true ↔ ∃ d ∈ flow.outputs, d.goesInto key = true := by
  simp [Flow.lastInto?]

/-- Unless something is written to the entry it is null: the output that goes into it last is the
entry itself. -/
def Flow.LeavesNull (flow : Flow) (key : String) : Prop :=
  ∃ d, flow.lastInto? key = some d ∧ d.outputPath = ["outputs", key]

instance (flow : Flow) (key : String) : Decidable (flow.LeavesNull key) :=
  decidable_of_iff ((flow.lastInto? key).map FlowField.outputPath = some ["outputs", key])
    Option.map_eq_some_iff

/-- If all ids are read as they are written, every declared output is null at first. -/
theorem Flow.leavesNull_of_bare {flow : Flow} (bare : ∀ d ∈ flow.outputs, Path.IsBare d.id)
    {d : FlowField} (hd : d ∈ flow.outputs) : flow.LeavesNull d.id := by
  have into : d.goesInto d.id = true :=
    FlowField.goesInto_iff.mpr ⟨[], FlowField.outputPath_eq_iff.mpr (bare d hd)⟩
  have found := Flow.isSome_lastInto?_iff.mpr ⟨d, hd, into⟩
  obtain ⟨last, found⟩ := Option.isSome_iff_exists.mp found
  refine ⟨last, found, ?_⟩
  rw [Flow.lastInto?, List.findRev?_eq_find?_reverse] at found
  have hl : last ∈ flow.outputs := List.mem_reverse.mp (List.mem_of_find?_eq_some found)
  have own := FlowField.outputPath_eq_iff.mpr (bare last hl)
  obtain ⟨rest, place⟩ := FlowField.goesInto_iff.mp (List.find?_some found)
  rw [own] at place
  have same : last.id = d.id := (List.cons.inj (List.cons.inj place).2).1
  rw [own, same]

namespace Frame

variable {f : Frame} {c d : Context} {key : String} {inputs : Fields}

open Traced

/-! ## §3 The first context -/

/-- Of the nulls that go into an entry the last one counts. -/
theorem stored?_storeNulls {fields : List FlowField}
    (h : (storeNulls "outputs" fields c).outcome = .ok d) (key : String) :
    match fields.findRev? (FlowField.goesInto key) with
    | none => d.stored? ["outputs", key] = c.stored? ["outputs", key]
    | some field => ∃ w, d.stored? ["outputs", key] = some w
        ∧ (w = .null ↔ field.outputPath = ["outputs", key]) := by
  induction fields generalizing c with
  | nil =>
    cases h
    rfl
  | cons field rest ih =>
    obtain ⟨m, stored, h⟩ := outcome_bind_eq_ok.mp h
    have step : c.write .plain .null field.outputPath = .ok m :=
      Context.outcome_writeTraced_eq_ok.mp stored
    have later := ih h
    have last : (field :: rest).findRev? (FlowField.goesInto key)
        = (rest.findRev? (FlowField.goesInto key)).or
          ([field].find? (FlowField.goesInto key)) := by simp
    rw [last]
    cases hr : rest.findRev? (FlowField.goesInto key) with
    | some other =>
      rw [hr] at later
      exact later
    | none =>
      rw [hr] at later
      simp only at later
      cases into : field.goesInto key with
      | true =>
        obtain ⟨more, place⟩ := FlowField.goesInto_iff.mp into
        rw [place] at step
        obtain ⟨w, hw, null⟩ := Context.stored?_write_null step
        rw [Option.none_or, List.find?_cons_of_pos into]
        refine ⟨w, later.trans hw, ?_⟩
        rw [null, place]
        simp
      | false =>
        rw [Option.none_or, List.find?_cons_of_neg (by simp [into]), List.find?_nil]
        refine later.trans (stored?_write_elsewhere step ?_)
        intro more place
        rw [FlowField.goesInto_iff.mpr ⟨more, place⟩] at into
        cases into

/-- What is stored at the paths of a namespace leaves the entries of another one. -/
theorem stored?_storeNulls_elsewhere {space s e : String} {fields : List FlowField}
    (plain : space.toList.all Path.isPlain = true) (hne : space.toList ≠ []) (other : space ≠ s)
    (h : (storeNulls space fields c).outcome = .ok d) :
    d.stored? [s, e] = c.stored? [s, e] := by
  induction fields generalizing c with
  | nil =>
    cases h
    rfl
  | cons field rest ih =>
    obtain ⟨m, stored, h⟩ := outcome_bind_eq_ok.mp h
    have step := Context.outcome_writeTraced_eq_ok.mp stored
    have word : (s!"{space}.{field.id}").toList = space.toList ++ '.' :: field.id.toList := by
      simp [toString]
    have first := Path.split_root plain hne word
    refine (ih h).trans (stored?_write_elsewhere step ?_)
    intro more place
    rw [first, String.ofList_toList] at place
    exact other (List.cons.inj place).1

theorem stored?_storeInputs {s e : String} (other : "inputs" ≠ s) {fields : List FlowField}
    {given : Fields} (h : (f.storeInputs fields given c).outcome = .ok d) :
    d.stored? [s, e] = c.stored? [s, e] := by
  induction fields generalizing given c with
  | nil =>
    cases h
    rfl
  | cons field rest ih =>
    unfold storeInputs at h
    cases hg : Entries.get? given field.id with
    | none =>
      simp only [hg] at h
      split at h
      · cases h
      · exact ih h
    | some v =>
      simp only [hg] at h
      obtain ⟨⟨w, state⟩, _, h⟩ := outcome_bind_eq_ok.mp h
      obtain ⟨m, stored, h⟩ := outcome_bind_eq_ok.mp h
      have step := Context.outcome_writeTraced_eq_ok.mp stored
      have word : (s!"inputs.{field.id}").toList = "inputs".toList ++ '.' :: field.id.toList := by
        simp [toString]
      have first := Path.split_root (by decide) (by decide) word
      refine (ih h).trans (stored?_write_elsewhere step ?_)
      intro more place
      rw [first, String.ofList_toList] at place
      exact other (List.cons.inj place).1

/-- Before its first step a flow has the entries that its declared outputs go into, and no others;
each of them is null if the output that goes into it last is the entry itself. -/
theorem stored?_start (h : (f.start inputs).outcome = .ok c) (key : String) :
    match f.flow.lastInto? key with
    | none => c.stored? ["outputs", key] = none
    | some field => ∃ w, c.stored? ["outputs", key] = some w
        ∧ (w = .null ↔ field.outputPath = ["outputs", key]) := by
  obtain ⟨c₁, supplied, h⟩ := outcome_bind_eq_ok.mp h
  obtain ⟨c₂, nulled, h⟩ := outcome_bind_eq_ok.mp h
  have blank : f.blank.stored? ["outputs", key] = none := by
    rw [stored?_slot]
    exact congrArg (Option.map _) (slot?_empty "outputs" key)
  have first : c₁.stored? ["outputs", key] = none :=
    (stored?_storeInputs (by decide) supplied).trans blank
  have last : c.stored? ["outputs", key] = c₂.stored? ["outputs", key] :=
    stored?_storeNulls_elsewhere (by decide) (by decide) (by decide) h
  have middle := stored?_storeNulls nulled key
  rw [last]
  unfold Flow.lastInto?
  cases hl : f.flow.outputs.findRev? (FlowField.goesInto key) with
  | none =>
    rw [hl] at middle
    exact middle.trans first
  | some field =>
    rw [hl] at middle
    exact middle

/-! ## §4 Runs -/

/-- A move leaves every entry in its place. -/
theorem Makes.keeps_entry {m : Move} {s e : String} (step : f.Makes c m d)
    (there : (c.stored? [s, e]).isSome = true) : (d.stored? [s, e]).isSome = true := by
  rw [stored?_slot, Option.isSome_map] at there ⊢
  rcases step.edits_or_clear with edits | rfl
  · exact edits.slot_isSome there
  · exact there

theorem Goes.keeps_entry {moves : Trail} {s e : String} (h : f.Goes c moves d)
    (there : (c.stored? [s, e]).isSome = true) : (d.stored? [s, e]).isSome = true :=
  h.preserves (Q := fun _ _ => True) (P := fun x => (x.stored? [s, e]).isSome = true)
    (fun _ _ => trivial) there fun _ _ _ _ here step => step.keeps_entry here

/-- What a flow returns for its declared outputs, from the context that it starts in and the one
that it ends in. -/
theorem outputs_of_goes {first : Context} {moves : Trail} {outputs : Fields}
    (begun : (f.start inputs).outcome = .ok first) (goes : f.Goes first moves c)
    (extracted : f.outputs c = .ok outputs) {d : FlowField} (hd : d ∈ f.flow.outputs)
    (into : d.goesInto key = true) : key ∈ Entries.keys outputs := by
  have found := Flow.isSome_lastInto?_iff.mpr ⟨d, hd, into⟩
  obtain ⟨last, found⟩ := Option.isSome_iff_exists.mp found
  have at_first := stored?_start begun key
  rw [found] at at_first
  obtain ⟨w, hw, _⟩ := at_first
  exact (mem_keys_outputs_iff extracted).mpr (goes.keeps_entry (by rw [hw]; rfl))

/-- An entry that nothing is written to is there if an output goes into it, and null if the last of
these is the entry itself. -/
theorem outputs_of_spared {first : Context} {moves : Trail} {outputs : Fields}
    (begun : (f.start inputs).outcome = .ok first) (goes : f.Goes first moves c)
    (extracted : f.outputs c = .ok outputs)
    (spared : ∀ x ∈ moves, ¬ f.WritesTo "outputs" key x.1 x.2) :
    (key ∈ Entries.keys outputs ↔ ∃ d ∈ f.flow.outputs, d.goesInto key = true)
      ∧ (c.stored? ["outputs", key] = some .null ↔ f.flow.LeavesNull key) := by
  have at_first := stored?_start begun key
  rw [← goes.stored?_of_spared spared] at at_first
  rw [mem_keys_outputs_iff extracted, ← Flow.isSome_lastInto?_iff]
  unfold Flow.LeavesNull
  cases found : f.flow.lastInto? key with
  | none =>
    rw [found] at at_first
    simp only at at_first
    simp [at_first]
  | some last =>
    rw [found] at at_first
    obtain ⟨w, hw, null⟩ := at_first
    simp [hw, null]

end Frame

namespace Engine

open Tabletop.Frame

/-- What a run returns for the declared outputs. Its trail, the moves that it has made itself,
begins with those of its start. Every entry that one of the outputs goes into is a key of what is
returned, so each id is that is read as it is written. And as long as the moves since the start
write nothing to an entry, it is a key for no other reason, and null if and only if the output that
goes into it last is the entry itself. The same holds for every other chain of moves that leads
from the start to the end. -/
theorem execute_returns_declared (e : Engine) {host : Host} {id : String}
    {inputs outputs : Fields} (succeeded : (e.execute host id inputs).result = .ok outputs) :
    ∃ flow first u t last c begun own, e.catalog.flow? id = some flow
      ∧ (Frame.start ⟨e, flow, 0⟩ inputs).outcome = .ok first
      ∧ Listed.start ⟨e, flow, 0⟩ inputs [] { host } = (.ok (first, begun), u)
      ∧ AtBoundary ⟨e, flow, 0⟩ (e.runFlow e.config.maxFlowDepth 1) inputs { host } t last c
      ∧ HasTrail ⟨e, flow, 0⟩ (e.runFlow e.config.maxFlowDepth 1) inputs { host } t last c
        (begun ++ own)
      ∧ flow.steps[last]? = none ∧ Frame.outputs ⟨e, flow, 0⟩ c = .ok outputs
      ∧ Goes ⟨e, flow, 0⟩ first own c ∧ (∀ x ∈ own, x.2.IsOf flow.allActions)
      ∧ (∀ d ∈ flow.outputs, ∀ key, d.goesInto key = true → key ∈ Entries.keys outputs)
      ∧ (∀ d ∈ flow.outputs, Path.IsBare d.id → d.id ∈ Entries.keys outputs)
      ∧ ∀ key moves, Goes ⟨e, flow, 0⟩ first moves c →
        (∀ x ∈ moves, ¬ WritesTo ⟨e, flow, 0⟩ "outputs" key x.1 x.2) →
          (key ∈ Entries.keys outputs ↔ ∃ d ∈ flow.outputs, d.goesInto key = true)
          ∧ (c.stored? ["outputs", key] = some .null ↔ flow.LeavesNull key)
          ∧ (flow.LeavesNull key → Entries.get? outputs key = some .null) := by
  have ran : e.runFlow (e.config.maxFlowDepth + 1) 0 id inputs { host } = (.ok outputs, _) :=
    Prod.ext succeeded rfl
  cases found : e.catalog.flow? id with
  | none =>
    rw [runFlow, found] at ran
    cases ran
  | some flow =>
    rw [runFlow, found] at ran
    obtain ⟨t, last, c, at_end, ended, extracted⟩ := atBoundary_of_runFrame ran
    obtain ⟨trail, walked⟩ := atBoundary_iff_hasTrail.mp at_end
    obtain ⟨first, u, begun, own, listed, rfl, goes, of_actions⟩ := walked.since_start
    have started := Run.gives_traced ⟨_, _, (tracks_start.eq_ok_iff []).mpr ⟨_, listed⟩⟩
    have indexed := at_end.regular.toIndexed
    have kept : ∀ d ∈ flow.outputs, ∀ key, d.goesInto key = true → key ∈ Entries.keys outputs :=
      fun d hd key into => outputs_of_goes started goes extracted hd into
    refine ⟨flow, first, u, t, last, c, begun, own, rfl, started, listed, at_end, walked, ended,
      extracted, goes, of_actions, kept, ?_, ?_⟩
    · intro d hd bare
      have own := FlowField.outputPath_eq_iff.mpr bare
      exact kept d hd d.id (FlowField.goesInto_iff.mpr ⟨[], own⟩)
    · intro key moves goes spared
      obtain ⟨listed, null⟩ := outputs_of_spared started goes extracted spared
      exact ⟨listed, null, fun leaves => get?_outputs_of_null indexed extracted (null.mpr leaves)⟩

/-- A flow that ends at once, of a score and a prize. -/
def opening : Flow where
  id := "open"
  outputs := [{ id := "score", typeName := "int" }, { id := "prize", typeName := "str" }]

/-- The last step of a game, without actions. -/
def closingStep : Step where
  id := "close"
  typeName := "completion"

/-- A flow of one output, whose id has a dot in it. -/
def heroes : Flow where
  id := "heroes"
  outputs := [{ id := "hero.hp", typeName := "int" }]
  steps := [closingStep]

/-- A flow of two outputs, the second one inside the first. -/
def teams : Flow where
  id := "teams"
  outputs := [{ id := "team", typeName := "dict" }, { id := "team.size", typeName := "int" }]
  steps := [closingStep]

/-- Flows that write to no output. -/
def board : Engine where
  catalog := { flows := [("open", opening), ("heroes", heroes), ("teams", teams)] }

/-- A run that succeeds and passes a test. -/
theorem exists_outputs_of_test (e : Engine) (id : String) (test : Fields → Bool)
    (h : (e.execute {} id []).result.toOption.any test = true) :
    ∃ outputs, (e.execute {} id []).result = .ok outputs ∧ test outputs = true := by
  cases ran : (e.execute {} id []).result with
  | error stop =>
    rw [ran] at h
    cases h
  | ok outputs =>
    rw [ran] at h
    exact ⟨outputs, rfl, h⟩

/-- The score is a key after a step has set it, and the prize is null where there is no step. -/
theorem board_returns_prize :
    (∃ outputs, (tally.execute {} "count" []).result = .ok outputs
      ∧ "score" ∈ Entries.keys outputs) ∧
    ∃ outputs, (board.execute {} "open" []).result = .ok outputs
      ∧ Entries.get? outputs "prize" = some .null := by
  constructor
  · obtain ⟨outputs, ran, _⟩ := exists_outputs_of_test tally "count" (fun _ => true)
      (by decide +kernel)
    obtain ⟨flow, _, _, _, _, _, _, _, found, _, _, _, _, _, _, _, _, _, named, _⟩ :=
      execute_returns_declared tally ran
    cases found
    exact ⟨outputs, ran, named _ List.mem_cons_self (by decide)⟩
  · obtain ⟨outputs, ran, _⟩ := exists_outputs_of_test board "open" (fun _ => true)
      (by decide +kernel)
    obtain ⟨flow, first, _, _, _, c, _, _, found, begun, _, at_end, _, _, _, _, _, _, _, spared⟩ :=
      execute_returns_declared board ran
    cases found
    have same : first = c := by
      cases at_end with
      | start begun' =>
        have ended := Run.gives_traced ⟨_, _, begun'⟩
        exact Except.ok.inj (begun.symm.trans ended)
      | step _ here _ => cases here
    subst same
    obtain ⟨_, _, null⟩ := spared "prize" [] (.rest _) fun _ h => absurd h List.not_mem_nil
    exact ⟨outputs, ran, null (by decide +kernel)⟩

/-- An id with a dot in it is no key of what is returned. And a declared output to which no action
writes is not null if a later one is declared inside it. -/
theorem board_loses_outputs :
    (∃ outputs, (board.execute {} "heroes" []).result = .ok outputs
      ∧ "hero.hp" ∉ Entries.keys outputs) ∧
    ∃ outputs, board.catalog.flow? "teams" = some teams ∧ teams.allActions = []
      ∧ (board.execute {} "teams" []).result = .ok outputs
      ∧ Entries.get? outputs "team" ≠ some .null := by
  constructor
  · obtain ⟨outputs, ran, lost⟩ := exists_outputs_of_test board "heroes"
      (fun outputs => decide ("hero.hp" ∉ Entries.keys outputs)) (by decide +kernel)
    exact ⟨outputs, ran, of_decide_eq_true lost⟩
  · obtain ⟨outputs, ran, begun⟩ := exists_outputs_of_test board "teams"
      (fun outputs => (Entries.get? outputs "team").any fun v => !v.isNull)
      (by decide +kernel)
    refine ⟨outputs, by rfl, by rfl, ran, ?_⟩
    intro null
    rw [null] at begun
    cases begun

end Engine

end Tabletop
