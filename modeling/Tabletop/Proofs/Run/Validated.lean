/-
Tabletop.Proofs.Run.Validated — what the tag of a checked entry is worth.

An entry that is tagged as validated should hold a value that its model
accepts. Writes keep to that, since they take the tag away, and so do
inputs, which are never tagged so. Three moves need more: a value stored as
an object must be accepted when it is checked again, a check must read the
entry that it tags and not an alias, and an entry that a batch tags must hold
an accepted value once the writes of the whole batch are in. With that every
tag in every context of a run is right, and without it one is wrong.

  §1 Accepted values
  §2 Sound moves
  §3 Runs
-/
import Tabletop.Proofs.Context.Concern
import Tabletop.Proofs.Run.Boundary

namespace Tabletop

namespace Frame

/-! ## §1 Accepted values -/

/-- The value makes up an object of the model, all demands met. -/
def Accepts (f : Frame) (model : String) (v : Value) : Prop :=
  ∃ object, f.engine.make.instantiate model v = .ok object

/-- Every entry that is tagged as validated holds a value that the model accepts. -/
def AllValid (f : Frame) (c : Context) : Prop :=
  ∀ space entry slot model, c.slot? space entry = some slot → slot.state = .validated model →
    f.Accepts model slot.value

theorem allValid_blank (f : Frame) : f.AllValid f.blank := by
  intro space entry slot model h
  have none_there : f.blank.slot? space entry = none := Context.slot?_empty space entry
  rw [none_there] at h
  cases h

/-! ## §2 Sound moves -/

/-- What a move must meet so that tags stay right. A value that is stored as an object of a model
must be accepted again as it is then; a check of an entry whose namespace is hidden by an alias must
find an accepted value in the entry; and an entry that a batch marks must hold an accepted value in
the end. -/
def Sound (f : Frame) (c : Context) : Move → Prop
  | .store path v => ∀ space entry w model, Path.split path = [space, entry] →
      f.flow.coerceFor f.engine.catalog f.engine.make path v = .ok (w, .validated model) →
        f.Accepts model w
  | .check path => ∀ space entry slot v model, Path.split path = [space, entry] →
      (Entries.get? c.aliases space).isSome = true → c.slot? space entry = some slot →
      c.get path = some v → v.modelName? = some model → f.Accepts model slot.value
  | .batch actions => ∀ nexts d space entry slot model, f.Branched c actions nexts →
      c.applyChanges (c.changesOf nexts) = .ok d →
      Context.Marks (c.changesOf nexts) space entry model → d.slot? space entry = some slot →
        f.Accepts model slot.value
  | _ => True

variable {f : Frame} {c d : Context}

/-- An input is never tagged as validated. -/
theorem coerceInput_ne_validated {field : FlowField} {v w : Value} {state : SlotState}
    (h : (f.coerceInput field v).outcome = .ok (w, state)) (model : String) :
    state ≠ .validated model := by
  unfold coerceInput at h
  split at h
  · obtain ⟨_, _, h⟩ := Traced.outcome_bind_eq_ok.mp h
    cases h
    simp
  · split at h
    · obtain ⟨_, _, h⟩ := Traced.outcome_bind_eq_ok.mp h
      cases h
      simp
    · obtain ⟨_, _, h⟩ := Traced.outcome_bind_eq_ok.mp h
      cases h
      simp

/-- A value stored under a state keeps tags right if it is accepted wherever it is a whole entry
tagged as validated. -/
theorem AllValid.setTagged_iff (h : f.AllValid c) {path : String} {w : Value} {state : SlotState}
    (step : c.setTagged path w state = .ok d) :
    f.AllValid d ↔ ∀ space entry model, Path.split path = [space, entry] →
      state = .validated model → f.Accepts model w := by
  constructor
  · rintro hd space entry model hp rfl
    unfold Context.setTagged at step
    rw [hp, Context.write_slot] at step
    cases step
    refine hd space entry ⟨w, .validated model⟩ model ?_ rfl
    rw [Context.slot?_putSlot, if_pos ⟨rfl, rfl⟩]
  · intro accepted s e slot model hs tagged
    rcases Context.slot?_write_cases step hs with ⟨_, old⟩ | ⟨hp, rfl⟩ | ⟨_, _, _, _, rfl, _⟩
    · exact h s e slot model old tagged
    · exact accepted s e model hp tagged
    · exact absurd tagged (Context.touched_ne_validated _ model)

theorem AllValid.check_iff (h : f.AllValid c) {path model : String} {v : Value}
    {object : ModelObject} (found : c.get path = some v) (named : v.modelName? = some model)
    (made : f.engine.make.instantiate model v = .ok object) :
    f.AllValid (c.retag path (.validated model)) ↔ f.Sound c (.check path) := by
  constructor
  · intro hd space entry slot w other hp _ hs hw hother
    rw [found] at hw
    cases hw
    rw [named] at hother
    cases hother
    refine hd space entry ⟨slot.value, .validated model⟩ model ?_ rfl
    unfold Context.retag
    rw [hp]
    change (c.retagSlot space entry _).slot? space entry = _
    rw [Context.slot?_retagSlot, if_pos ⟨rfl, rfl⟩, hs, Option.map_some]
  · intro sound
    unfold Context.retag
    split
    · rename_i space entry hp
      intro s e slot other hs tagged
      rw [Context.slot?_retagSlot] at hs
      by_cases hse : space = s ∧ entry = e
      · obtain ⟨rfl, rfl⟩ := hse
        rw [if_pos ⟨rfl, rfl⟩, Option.map_eq_some_iff] at hs
        obtain ⟨old, hold, rfl⟩ := hs
        cases tagged
        cases hidden : Entries.get? c.aliases space with
        | none =>
          have read : v = old.value := Context.get_entry hp hidden hold found
          exact ⟨object, read ▸ made⟩
        | some front =>
          have hides : (Entries.get? c.aliases space).isSome = true := by rw [hidden]; rfl
          exact sound space entry old v model hp hides hold found named
      · rw [if_neg hse] at hs
        exact h s e slot other hs tagged
    · exact h

/-- A move keeps the tags right exactly if it is sound. -/
theorem Makes.allValid_iff {m : Move} (step : f.Makes c m d) (h : f.AllValid c) :
    f.AllValid d ↔ f.Sound c m := by
  cases step with
  | @write path v d step =>
    have step : c.setTagged path v .plain = .ok d := step
    refine iff_of_true ((h.setTagged_iff step).mpr ?_) trivial
    intro _ _ _ _ tagged
    cases tagged
  | store coerced step =>
    rw [h.setTagged_iff step]
    constructor
    · intro accepted space entry w model hp again
      rw [coerced] at again
      cases again
      exact accepted space entry model hp rfl
    · rintro sound space entry model hp rfl
      exact sound space entry _ model hp coerced
  | supply coerced step =>
    refine iff_of_true ((h.setTagged_iff step).mpr ?_) trivial
    intro _ _ model _ tagged
    exact absurd tagged (coerceInput_ne_validated coerced model)
  | check found named made => exact h.check_iff found named made
  | @batch actions nexts d branched replay =>
    constructor
    · intro hd nexts' d' space entry slot model branched' replay' marked hs
      have same : nexts' = nexts := branched'.unique branched
      subst same
      rw [replay] at replay'
      cases replay'
      exact hd space entry slot model hs (marked.tagged replay hs)
    · intro sound s e slot model hs tagged
      rcases Context.unchanged_or_marked replay hs tagged with ⟨_, old⟩ | marked
      · exact h s e slot model old tagged
      · exact sound nexts d s e slot model branched replay marked hs
  | clear => exact iff_of_true h trivial

/-! ## §3 Runs -/

/-- The tags are right all along a chain of moves exactly if the moves are sound. -/
theorem Goes.allValid_iff {moves : Trail} (chain : f.Goes c moves d)
    (h : f.AllValid c) :
    ((∀ x ∈ moves, f.AllValid x.1) ∧ f.AllValid d) ↔ ∀ x ∈ moves, f.Sound x.1 x.2 := by
  induction chain with
  | rest => simpa using h
  | move first others ih =>
    rw [List.forall_mem_cons, List.forall_mem_cons, ← first.allValid_iff h]
    constructor
    · rintro ⟨⟨_, along⟩, ended⟩
      have here := others.start_of_all along ended
      exact ⟨here, (ih here).mp ⟨along, ended⟩⟩
    · rintro ⟨here, sound⟩
      obtain ⟨along, ended⟩ := (ih here).mpr sound
      exact ⟨⟨h, along⟩, ended⟩

/-- The tags of checked entries in runs. Every run has a trail, the moves that it has made itself:
they lead to where it is, and the tags are right in every context on the way and there exactly if
every move of the trail is sound. Likewise for the moves that any actions make of a context whose
tags are right, one after another or as a batch, and for every chain of moves that starts where
runs start. -/
theorem tags_right_iff_moves_sound (f : Frame) :
    (∀ caller inputs s t index c, f.AtBoundary caller inputs s t index c ↔
      ∃ trail, f.HasTrail caller inputs s t index c trail) ∧
    (∀ caller inputs s t index c trail, f.HasTrail caller inputs s t index c trail →
      f.Goes f.blank trail c ∧ f.Ordinary trail ∧
      (((∀ x ∈ trail, f.AllValid x.1) ∧ f.AllValid c) ↔ ∀ x ∈ trail, f.Sound x.1 x.2)) ∧
    (∀ actions c own d, f.Acts actions c own d →
      f.Goes c own d ∧ ((∀ a ∈ actions, a ∈ f.flow.allActions) → f.Ordinary own) ∧
      (f.AllValid c →
        (((∀ x ∈ own, f.AllValid x.1) ∧ f.AllValid d) ↔ ∀ x ∈ own, f.Sound x.1 x.2))) ∧
    ∀ moves c, f.Goes f.blank moves c →
      (((∀ x ∈ moves, f.AllValid x.1) ∧ f.AllValid c) ↔ ∀ x ∈ moves, f.Sound x.1 x.2) := by
  refine ⟨fun _ _ _ _ _ _ => atBoundary_iff_hasTrail, ?_, ?_, ?_⟩
  · intro caller inputs s t index c trail own
    obtain ⟨chain, ordinary⟩ := own.goes
    exact ⟨chain, ordinary, chain.allValid_iff f.allValid_blank⟩
  · intro actions c own d acts
    exact ⟨acts.goes, acts.ordinary, acts.goes.allValid_iff⟩
  · exact fun _ _ chain => chain.allValid_iff f.allValid_blank

/-- A flow that promotes the hero it is given and checks it in the same batch. -/
def promotion : Frame where
  engine := { catalog := { models := [("hero", {
    id := "hero"
    attributes := [("rank", .leaf {
      typeName := "str"
      options := some [.text "squire", .text "knight"] })] })] } }
  flow := {
    id := "promotion"
    inputs := [{ id := "hero", typeName := "hero" }]
    steps := [{
      id := "promote"
      typeName := "completion"
      parallel := true
      actions := [
        ⟨"set_value", .mapping [("path", .text "inputs.hero.rank"), ("value", .text "king")]⟩,
        ⟨"validate_value", .text "inputs.hero"⟩] }] }
  depth := 0

/-- The hero that the flow is given. -/
def squire : Value := .mapping [("rank", .text "squire")]

/-- A hero that is stored is accepted, so the tag of the entry is right. -/
theorem promotion_keeps_stored_hero :
    ∃ c, promotion.Goes promotion.blank [(promotion.blank, .store "inputs.hero" squire)] c
      ∧ c.state? "inputs" "hero" = some (.validated "hero") ∧ promotion.AllValid c := by
  let object : Value := .mapping [("rank", .text "squire"), ("model", .text "hero")]
  have coerced : promotion.flow.coerceFor promotion.engine.catalog promotion.engine.make
      "inputs.hero" squire = .ok (object, .validated "hero") := by rfl
  have again : promotion.Accepts "hero" object := ⟨⟨"hero", _⟩, by rfl⟩
  have step : promotion.blank.setTagged "inputs.hero" object (.validated "hero")
      = .ok (promotion.blank.putSlot "inputs" "hero" ⟨object, .validated "hero"⟩) := by rfl
  refine ⟨_, .move (.store coerced step) (.rest _), by rfl, ?_⟩
  refine ((tags_right_iff_moves_sound promotion).2.2.2 _ _
    (.move (.store coerced step) (.rest _))).mpr ?_ |>.2
  intro x hx
  rw [List.mem_singleton.mp hx]
  intro space entry w model hp stored
  rw [coerced] at stored
  cases stored
  exact again

/-- The batch tags a hero of a rank that there is not. -/
theorem promotion_tags_refused_hero :
    ∃ caller inputs s t index c, promotion.AtBoundary caller inputs s t index c
      ∧ ¬ promotion.AllValid c := by
  let caller : Caller := fun id _ => Run.fail (.unknownFlow id)
  let run : Run Context := do
    let c ← Run.traced (promotion.start [("hero", squire)])
    promotion.runSteps caller 2 0 c
  -- the tag and the refusal are read off the context that the run ends with
  let wrong (c : Context) : Bool := (c.slot? "inputs" "hero").any fun slot =>
    slot.state == .validated "hero"
      && !(promotion.engine.make.instantiate "hero" slot.value).isOk
  have ends : ((run { host := {} }).1.toOption.any wrong) = true := by decide +kernel
  obtain ⟨d, t, ran, tagged⟩ := Run.exists_of_test ends
  obtain ⟨c, m, begun, ran⟩ := Run.bind_apply_eq_ok ran
  obtain ⟨last, at_end, _⟩ := atBoundary_of_runSteps (.start begun) ran
  refine ⟨caller, [("hero", squire)], { host := {} }, t, last, d, at_end, ?_⟩
  intro valid
  obtain ⟨slot, there, hslot⟩ := (Option.any_eq_true _ _).mp tagged
  rw [Bool.and_eq_true, beq_iff_eq] at hslot
  obtain ⟨object, made⟩ := valid "inputs" "hero" slot "hero" there hslot.1
  rw [made] at hslot
  cases hslot.2

end Frame

end Tabletop
