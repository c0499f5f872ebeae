/-
Tabletop.Proofs.Run.Boundary — the contexts between the steps of a run.

A run of a flow is between two steps in the context that its inputs make,
and then in whatever each step leaves behind. Its trail is the list of the
moves that it has made so far, each with the context on which it made it.
The trail leads from the empty context to where the run is, by supplying
inputs, writing nulls, and moves on behalf of the actions of the flow.

  §1 The first context
  §2 Boundaries
-/
import Tabletop.Proofs.Run.Visit

namespace Tabletop

namespace Frame

open Traced

variable {f : Frame} {caller : Caller} {inputs : Fields}

/-! ## §1 The first context -/

/-- The context of a flow before anything is stored. -/
def blank (f : Frame) : Context := { Context.empty with resolver := f.engine.resolver }

/-- The moves are some that a flow makes: first ones, or moves on behalf of its actions. -/
def Ordinary (f : Frame) (moves : Trail) : Prop :=
  ∀ x ∈ moves, x.2.IsInitial f.flow ∨ x.2.IsOf f.flow.allActions

/-- Actions of the flow make moves of the flow. -/
theorem Acts.ordinary {actions : List Action} {c d : Context} {moves : Trail}
    (h : f.Acts actions c moves d) (sub : ∀ a ∈ actions, a ∈ f.flow.allActions) :
    f.Ordinary moves :=
  fun x hx => Or.inr (h.isOf sub x hx)

/-- What is given is used up by the first declaration of its id. -/
theorem declared?_of_given {before rest : List FlowField} {field : FlowField} {given : Fields}
    {v : Value} (split : f.flow.inputs = before ++ field :: rest)
    (used : ∀ d ∈ before, Entries.get? given d.id = none)
    (hg : Entries.get? given field.id = some v) :
    f.flow.declared? "inputs" field.id = some field := by
  have earlier : before.find? (fun d => d.id == field.id) = none := by
    rw [List.find?_eq_none]
    intro d hd same
    rw [beq_iff_eq] at same
    have unused := used d hd
    rw [same, hg] at unused
    cases unused
  change f.flow.inputs.find? (fun d => d.id == field.id) = some field
  rw [split, List.find?_append, earlier, Option.none_or, List.find?_cons_of_pos (by simp)]

/-- Of two declarations of one id the second one finds nothing, so what is supplied is supplied for
the first one. -/
theorem tracks_storeInputs (before : List FlowField) {fields : List FlowField} {given : Fields}
    {c : Context} (split : f.flow.inputs = before ++ fields)
    (used : ∀ field ∈ before, Entries.get? given field.id = none) :
    Tracks f (Move.IsInitial f.flow) c (Listed.storeInputs f fields given c)
      (Run.traced (f.storeInputs fields given c)) id := by
  induction fields generalizing before given c with
  | nil => exact .pure_traced rfl
  | cons field rest ih =>
    have split' : f.flow.inputs = (before ++ [field]) ++ rest := by simp [split]
    unfold Listed.storeInputs storeInputs
    cases hg : Entries.get? given field.id with
    | none =>
      dsimp only
      split
      · rw [Run.traced_fail]
        exact .stop fun _ => Run.not_gives_fail
      · refine ih _ split' (List.forall_mem_append.mpr ⟨used, ?_⟩)
        exact List.forall_mem_singleton.mpr hg
    | some v =>
      have supplied : Tracks f (Move.IsInitial f.flow) c (Listed.supply f field v c) _ id :=
        .make (fun d h => by
          obtain ⟨⟨w, state⟩, coerced, stored⟩ := outcome_bind_eq_ok.mp h
          have step := Context.outcome_writeTraced_eq_ok.mp stored
          exact .move (.supply coerced step) (.rest d))
          (List.forall_mem_singleton.mpr (declared?_of_given split used hg))
      have after : ∀ d, Tracks f (Move.IsInitial f.flow) d
          (Listed.storeInputs f rest (Entries.erase given field.id) d)
          (Run.traced (f.storeInputs rest (Entries.erase given field.id) d)) id := by
        refine fun d => ih _ split' ?_
        intro earlier there
        rw [Entries.get?_erase]
        by_cases same : field.id = earlier.id
        · exact if_pos same
        · rw [if_neg same]
          rcases List.mem_append.mp there with there | there
          · exact used earlier there
          · exact absurd (by rw [List.mem_singleton.mp there]) same
      have whole := supplied.bind_traced after
      rwa [bind_assoc] at whole

theorem tracks_storeNulls {space : String} {fields : List FlowField} {c : Context} :
    Tracks f (Move.IsInitial f.flow) c (Listed.storeNulls space fields c)
      (Run.traced (storeNulls space fields c)) id := by
  induction fields generalizing c with
  | nil => exact .pure_traced rfl
  | cons field rest ih =>
    have nulled : Tracks f (Move.IsInitial f.flow) c (Listed.put c s!"{space}.{field.id}" .null)
        (Run.traced (c.put s!"{space}.{field.id}" .null)) id :=
      .make (fun _ h => goes_put h) (List.forall_mem_singleton.mpr rfl)
    exact nulled.bind_traced fun _ => ih

theorem tracks_start :
    Tracks f (Move.IsInitial f.flow) f.blank (Listed.start f inputs) (Run.traced (f.start inputs))
      id := by
  unfold Listed.start start
  refine (tracks_storeInputs [] rfl fun _ none => absurd none List.not_mem_nil).bind_traced ?_
  exact fun _ => tracks_storeNulls.bind_traced fun _ => tracks_storeNulls

/-! ## §2 Boundaries -/

/-- A run of the flow that begins in the session `s` is between two steps in the session `t`. The
position is that of the next step, and the context is what the steps before it have made. -/
inductive AtBoundary (f : Frame) (caller : Caller) (inputs : Fields) (s : Session) :
    (t : Session) → (index : Nat) → Context → Prop
  | start {t : Session} {c : Context} (begun : Run.traced (f.start inputs) s = (.ok c, t)) :
      AtBoundary f caller inputs s t 0 c
  | step {t u : Session} {index next : Nat} {step : Step} {c d : Context}
      (before : AtBoundary f caller inputs s t index c)
      (here : f.flow.steps[index]? = some step)
      (done : (f.advance caller step index c).atStep step.id t = (.ok (d, next), u)) :
      AtBoundary f caller inputs s u next d

/-- A run is between two steps, as `AtBoundary` says, and its trail is what it has done so far: the
moves of its start, and then those of each of its steps. -/
inductive HasTrail (f : Frame) (caller : Caller) (inputs : Fields) (s : Session) :
    (t : Session) → (index : Nat) → Context → Trail → Prop
  | start {t : Session} {c : Context} {trail : Trail}
      (begun : Listed.start f inputs [] s = (.ok (c, trail), t)) :
      HasTrail f caller inputs s t 0 c trail
  | step {t u : Session} {index next : Nat} {step : Step} {c d : Context} {trail more : Trail}
      (before : HasTrail f caller inputs s t index c trail)
      (here : f.flow.steps[index]? = some step)
      (done : Listed.atStep step.id (Listed.advance f caller step index c) trail t
        = (.ok ((d, next), more), u)) :
      HasTrail f caller inputs s u next d more

/-- The actions of a step of the flow are actions of the flow. -/
theorem allActions_of_getElem? {step : Step} {index : Nat}
    (here : f.flow.steps[index]? = some step) : ∀ a ∈ step.allActions, a ∈ f.flow.allActions :=
  fun _ ha => List.mem_flatMap.mpr ⟨step, List.mem_of_getElem? here, ha⟩

/-- What a step of the flow does is tracked. -/
theorem tracks_stepAt {step : Step} {index : Nat} {c : Context}
    (here : f.flow.steps[index]? = some step) :
    Tracks f (Move.IsOf f.flow.allActions) c
      (Listed.atStep step.id (Listed.advance f caller step index c))
      ((f.advance caller step index c).atStep step.id) Prod.fst :=
  (tracks_advance (allActions_of_getElem? here)).atStep step.id

variable {s t : Session} {index : Nat} {c : Context} {trail : Trail}

/-- The trail of a run is a chain of moves of the flow that leads to where the run is. -/
theorem HasTrail.goes (h : f.HasTrail caller inputs s t index c trail) :
    f.Goes f.blank trail c ∧ f.Ordinary trail := by
  induction h with
  | start begun =>
    obtain ⟨moves, rfl, goes, initial⟩ := tracks_start.leads ⟨s, _, begun⟩
    exact ⟨goes, fun x hx => Or.inl (initial x hx)⟩
  | step _ here done ih =>
    obtain ⟨moves, rfl, goes, own⟩ := (tracks_stepAt here).leads ⟨_, _, done⟩
    refine ⟨ih.1.append goes, ?_⟩
    exact List.forall_mem_append.mpr ⟨ih.2, fun x hx => Or.inr (own x hx)⟩

/-- The trail of a run begins with the moves of its start, and goes on from the context that these
make by moves on behalf of the actions of the flow. -/
theorem HasTrail.since_start (h : f.HasTrail caller inputs s t index c trail) :
    ∃ first u begun own, Listed.start f inputs [] s = (.ok (first, begun), u)
      ∧ trail = begun ++ own ∧ f.Goes first own c ∧ ∀ x ∈ own, x.2.IsOf f.flow.allActions := by
  induction h with
  | start begun =>
    exact ⟨_, _, _, [], begun, (List.append_nil _).symm, .rest _,
      fun _ none => absurd none List.not_mem_nil⟩
  | step _ here done ih =>
    obtain ⟨first, u, begun, few, started, rfl, goes, own⟩ := ih
    obtain ⟨more, rfl, goes', own'⟩ := (tracks_stepAt here).leads ⟨_, _, done⟩
    exact ⟨first, u, begun, few ++ more, started, List.append_assoc _ _ _, goes.append goes',
      List.forall_mem_append.mpr ⟨own, own'⟩⟩

/-- Runs have trails. -/
theorem atBoundary_iff_hasTrail :
    f.AtBoundary caller inputs s t index c ↔
      ∃ trail, f.HasTrail caller inputs s t index c trail := by
  constructor
  · intro h
    induction h with
    | start begun =>
      obtain ⟨trail, listed⟩ := (tracks_start.eq_ok_iff []).mp begun
      exact ⟨trail, .start listed⟩
    | step _ here done ih =>
      obtain ⟨trail, before⟩ := ih
      obtain ⟨more, listed⟩ := ((tracks_stepAt here).eq_ok_iff trail).mp done
      exact ⟨more, before.step here listed⟩
  · rintro ⟨trail, h⟩
    induction h with
    | start begun => exact .start ((tracks_start.eq_ok_iff []).mpr ⟨_, begun⟩)
    | step _ here done ih => exact .step ih here (((tracks_stepAt here).eq_ok_iff _).mpr ⟨_, done⟩)

theorem atBoundary_of_runSteps {s t u : Session} {fuel index : Nat} {c d : Context}
    (before : f.AtBoundary caller inputs s t index c)
    (h : f.runSteps caller fuel index c t = (.ok d, u)) :
    ∃ last, f.AtBoundary caller inputs s u last d ∧ f.flow.steps[last]? = none := by
  induction fuel generalizing t index c with
  | zero => cases h
  | succ fuel ih =>
    unfold runSteps at h
    cases here : f.flow.steps[index]? with
    | none =>
      simp only [here] at h
      cases h
      exact ⟨index, before, here⟩
    | some step =>
      simp only [here] at h
      obtain ⟨⟨d₁, next⟩, m, done, h⟩ := Run.bind_apply_eq_ok h
      exact ih (before.step here done) h

/-- A run that succeeds ends at a boundary past the last step, where it takes its outputs. -/
theorem atBoundary_of_runFrame {s t : Session} {outputs : Fields}
    (h : Engine.runFrame f caller inputs s = (.ok outputs, t)) :
    ∃ u last c, f.AtBoundary caller inputs s u last c ∧ f.flow.steps[last]? = none
      ∧ f.outputs c = .ok outputs := by
  obtain ⟨c, m, begun, h⟩ := Run.bind_apply_eq_ok h
  obtain ⟨d, u, went, h⟩ := Run.bind_apply_eq_ok h
  obtain ⟨last, at_end, none_left⟩ := atBoundary_of_runSteps (.start begun) went
  exact ⟨u, last, d, at_end, none_left, Run.gives_lift ⟨u, t, h⟩⟩

end Frame

end Tabletop
