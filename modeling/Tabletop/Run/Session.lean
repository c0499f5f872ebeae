/-
Tabletop.Run.Session — what a run shares between its flows, and its host.

The host rolls dice, finds names, answers for the player and runs language
models. What it replies to the requests of one kind is a script: each request
takes the next reply, and once these are used up the host gives one and the
same reply to all others. What it replies is its own matter, the texts of its
failures and the details of its rolls included. What a host has not installed
cannot be asked; no event is reported then.

`Run` is a computation that talks to the host, reports events and may stop.

  §1 The host
  §2 Runs
  §3 Requests
-/
import Tabletop.Llm
import Tabletop.Run.Event

namespace Tabletop

/-! ## §1 The host -/

/-- The outcome of one roll. -/
structure Roll where
  total : Int
  detail : String
  deriving DecidableEq, Repr

/-- The roll as it is kept in the results of steps. -/
def Roll.summary (r : Roll) : Value :=
  .mapping [("total", .int r.total), ("detail", .text r.detail)]

/-- What rolls an expression: it gives a total and the detail of the roll, or fails. -/
abbrev DiceRoller := String → Except String Roll

/-- The reply to a request for a name. -/
inductive NameReply where
  | name (name : String)
  /-- The corpus cannot be loaded. -/
  | noCorpus (message : String)
  /-- The corpus gives no name. -/
  | noName (message : String)
  deriving DecidableEq, Repr

/-- The replies to requests of one kind. -/
structure Script (α : Type) where
  /-- The next replies, in order. -/
  replies : List α
  /-- The reply to every request once these are used up. -/
  past : α

namespace Script

variable {α : Type}

/-- The reply to the next request. -/
def next (s : Script α) : α := s.replies.headD s.past

/-- The replies to the requests after the next one. -/
def rest (s : Script α) : Script α := { s with replies := s.replies.tail }

end Script

/-- What the host will answer; none is not installed. -/
structure Host where
  dice : Option (Script DiceRoller) := none
  names : Option (Script NameReply) := none
  answers : Option (Script (Except String Value)) := none
  llm : Option (Script LlmClient) := none

/-! ## §2 Runs -/

/-- Why a run stops early. -/
inductive Stop where
  | failed (error : FlowError)
  /-- The steps that a run without a bound may take are used up. -/
  | outOfFuel

/-- What a run shares between its flows. -/
structure Session where
  host : Host
  /-- The events so far, the latest first. -/
  log : List Event := []
  /-- The steps begun so far. -/
  transitions : Nat := 0
  /-- The sub-flows called so far. -/
  subFlows : Nat := 0

/-- A computation in a session. -/
abbrev Run := ExceptT Stop (StateM Session)

namespace Run

variable {α : Type}

/-- Stops with a failure. -/
def fail (f : Failure) : Run α := throw (.failed ⟨f, none⟩)

/-- Reports an event. -/
def report (e : Event) : Run Unit := modify fun s => { s with log := e :: s.log }

/-- Runs a traced computation. -/
def traced (t : Traced α) : Run α := do
  modify fun s => { s with log := t.events.reverseAux s.log }
  match t.outcome with
  | .ok a => pure a
  | .error f => fail f

/-- Attributes a failure of the computation to a step, unless it is attributed already. -/
def atStep (id : String) (run : Run α) : Run α :=
  tryCatch run fun
    | .failed error => throw (.failed (error.atStep id))
    | .outOfFuel => throw .outOfFuel

/-- Changes what the host will answer. -/
def setHost (change : Host → Host) : Run Unit :=
  modify fun s => { s with host := change s.host }

/-! ## §3 Requests -/

/-- Reports a request and takes the next reply to it, if what it asks for is installed. -/
def nextReply (script : Host → Option (Script α)) (keep : Script α → Host → Host)
    (request : Event) : Run (Option α) := do
  match script (← get).host with
  | none => pure none
  | some replies => do
      report request
      setHost (keep replies.rest)
      pure (some replies.next)

/-- Rolls dice. -/
def roll (expression : String) : Run Roll := do
  match ← nextReply Host.dice (fun rest h => { h with dice := some rest }) (.rolled expression) with
  | none =>
      fail (.rollFailed expression s!"no dice roller configured; cannot roll '{expression}'")
  | some roller =>
      match roller expression with
      | .error message => fail (.rollFailed expression message)
      | .ok roll => pure roll

/-- Finds a name in a corpus. -/
def name (corpus segmenter : String) (maxLength : Nat) (algorithm : String) : Run String := do
  match ← nextReply Host.names (fun rest h => { h with names := some rest })
      (.openedCorpus corpus segmenter) with
  | none =>
      fail (.corpusFailed corpus
        s!"no name generator configured; cannot load corpus '{corpus}'")
  | some (.noCorpus message) => fail (.corpusFailed corpus message)
  | some (.noName message) =>
      report (.generatedName maxLength algorithm)
      fail (.nameFailed message)
  | some (.name found) =>
      report (.generatedName maxLength algorithm)
      pure found

/-- Asks the player, showing a step and everything in the context. -/
def ask (step : Step) (snapshot : Value) : Run Value := do
  match ← nextReply Host.answers (fun rest h => { h with answers := some rest })
      (.asked step snapshot) with
  | none => fail (.unattended step.typeName)
  | some (.error message) => fail (.inputFailed message)
  | some (.ok v) => pure v

/-- There is a player to ask. -/
def isAttended : Run Bool := do return (← get).host.answers.isSome

/-- What the language model answers to a text. -/
def complete (text : String) (settings : LlmSettings) : Run (Except String LlmResponse) := do
  let client ← nextReply Host.llm (fun rest h => { h with llm := some rest })
    (.prompted text settings)
  pure (client.getD LlmClient.unconfigured text settings)

/-- Sends a text, made from the prompt of an id, to the language model. -/
def prompt (id text : String) (settings : LlmSettings) : Run LlmResponse := do
  match ← complete text settings with
  | .error message => fail (.llmFailed id message)
  | .ok response => pure response

end Run

end Tabletop
