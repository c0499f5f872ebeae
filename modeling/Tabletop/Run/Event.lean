/-
Tabletop.Run.Event — what a run reports.

A run reports events in the order in which they happen: warnings, what
actions log and announce, what is asked of the host, and the steps that are
completed. `Traced` is a computation on contexts that reports events and
may fail; events reported before a failure stay reported.

  §1 Events
  §2 Traced computations
  §3 Writing contexts
-/
import Tabletop.Context.Change
import Tabletop.Failure
import Tabletop.Flow

namespace Tabletop

/-! ## §1 Events -/

/-- Something odd that does not stop a run. -/
inductive Warning where
  /-- An alias has the name of a declared entry. -/
  | aliasShadows (name : String)
  | unknownAction (kind : String)
  | nothingToDisplay (path : String)
  | unknownInputType (input typeName : String)
  | retrying (flow step : String) (attempts : Nat) (error : String)
  | noTableEntry (table : String) (total : Int)
  | unknownStep (id typeName : String)
  deriving DecidableEq, Repr

/-- The warning in words. -/
def Warning.message : Warning → String
  | .aliasShadows _ => "alias shadows a declared flow field of the same name"
  | .unknownAction _ => "unknown action type; skipping"
  | .nothingToDisplay _ => "cannot display missing path"
  | .unknownInputType .. => "unknown input type; using value as-is"
  | .retrying .. => "step attempt failed; retrying"
  | .noTableEntry .. => "no table entry matches the roll"
  | .unknownStep .. => "unknown step type; skipping"

/-- The details of a warning. -/
def Warning.fields : Warning → Fields
  | .aliasShadows name => [("alias", .text name)]
  | .unknownAction kind => [("action_type", .text kind)]
  | .nothingToDisplay path => [("path", .text path)]
  | .unknownInputType input typeName => [("input", .text input), ("input_type", .text typeName)]
  | .retrying flow step attempts error =>
      [("flow_id", .text flow), ("step_id", .text step), ("attempts", .int attempts),
        ("error", .text error)]
  | .noTableEntry table total => [("table", .text table), ("total", .int total)]
  | .unknownStep id typeName => [("step_id", .text id), ("step_type", .text typeName)]

/-- The body of a step about to be run. -/
structure StepTask where
  flow : String
  step : String
  stepType : String
  depth : Nat
  /-- A failure of the host may be answered by another attempt. -/
  repeatable : Bool
  deriving DecidableEq, Repr

/-- Something that a run reports. -/
inductive Event where
  | warned (warning : Warning)
  | loggedMessage (message : String)
  | loggedEvent (typeName : String) (data : Value)
  /-- A step of the outermost flow is completed. -/
  | stepDone (id : String) (payload : Value)
  | acted (kind : String) (data : Value)
  | asked (step : Step) (snapshot : Value)
  | rolled (expression : String)
  | openedCorpus (corpus segmenter : String)
  | generatedName (maxLength : Nat) (algorithm : String)
  | prompted (prompt : String) (settings : LlmSettings)
  | started (task : StepTask)

/-! ## §2 Traced computations -/

/-- The outcome of a computation with the events that it reports, in order. -/
structure Traced (α : Type) where
  events : List Event
  outcome : Except Failure α

namespace Traced

variable {α β : Type}

/-- Reports one event. -/
def report (e : Event) : Traced Unit := ⟨[e], .ok ()⟩

/-- Fails. -/
def fail (f : Failure) : Traced α := ⟨[], .error f⟩

/-- An outcome without events. -/
def ofExcept (outcome : Except Failure α) : Traced α := ⟨[], outcome⟩

/-- Goes on with the outcome, unless it is a failure. -/
def andThen (t : Traced α) (next : α → Traced β) : Traced β :=
  match t.outcome with
  | .error f => ⟨t.events, .error f⟩
  | .ok a =>
      let after := next a
      ⟨t.events ++ after.events, after.outcome⟩

instance : Monad Traced where
  pure a := ⟨[], .ok a⟩
  bind := andThen

/-- A computation succeeds after another exactly when both do. -/
theorem outcome_bind_eq_ok {t : Traced α} {next : α → Traced β} {b : β} :
    (t >>= next).outcome = .ok b ↔ ∃ a, t.outcome = .ok a ∧ (next a).outcome = .ok b := by
  obtain ⟨events, outcome⟩ := t
  cases outcome <;> simp [bind, andThen]

instance : LawfulMonad Traced :=
  LawfulMonad.mk' Traced
    (by
      intro α t
      obtain ⟨events, outcome⟩ := t
      cases outcome <;> simp [Functor.map, andThen])
    (by
      intro α β a next
      simp [pure, bind, andThen])
    (by
      intro α β γ t next after
      obtain ⟨events, outcome⟩ := t
      cases outcome with
      | error f => rfl
      | ok a =>
        simp only [bind, andThen]
        cases h : (next a).outcome <;> simp [List.append_assoc])

/-- The computation, with what was being done named in its failure. -/
def during (place : Place) (t : Traced α) : Traced α :=
  { t with outcome := t.outcome.mapError (.within place) }

/-- The outcome of a resolved template. -/
def resolved (outcome : Except TemplateError α) : Traced α :=
  ofExcept (outcome.mapError .template)

/-- The outcome of making an object or a primitive value. -/
def made (outcome : Except InstantiationError α) : Traced α :=
  ofExcept (outcome.mapError .instantiation)

end Traced

/-! ## §3 Writing contexts -/

namespace Context

/-- Warns of an alias at the path that has the name of a declared entry. -/
def warnShadowing (c : Context) (path : Path) : Traced Unit :=
  match c.shadowing? path with
  | some name => .report (.warned (.aliasShadows name))
  | none => pure ()

/-- Writes a value at a path, with a state if the path names a whole entry. -/
def writeTraced (c : Context) (state : SlotState) (v : Value) (path : Path) : Traced Context := do
  let written ← Traced.ofExcept ((c.write state v path).mapError .context)
  c.warnShadowing path
  pure written

/-- Writes a value at a written path. -/
def put (c : Context) (path : String) (v : Value) : Traced Context :=
  c.writeTraced .plain v (Path.split path)

/-- Writes a value at a written path, with a state if the path names a whole entry. -/
def putTagged (c : Context) (path : String) (v : Value) (state : SlotState) : Traced Context :=
  c.writeTraced state v (Path.split path)

/-- Applies changes in their order. -/
def replay (c : Context) : List Change → Traced Context
  | [] => pure c
  | .write path v :: rest => do
      let c ← c.writeTraced .plain v path
      c.replay rest
  | .retag space entry state :: rest => (c.retagSlot space entry state).replay rest

end Context

end Tabletop
