/-
Tabletop.Run.Action — what actions do.

An action is read as a command and carried out on a context; it may report
events and gives a new context. What it announces to the host is reported
once it has succeeded. A list of actions runs in order, each on the context
of the one before. A batch runs each on the same context and then applies
all their changes in order.

  §1 Commands
  §2 Carrying out commands
  §3 Lists and batches
-/
import Tabletop.Run.Frame

namespace Tabletop

/-! ## §1 Commands -/

/-- What an action says to do. -/
inductive Command where
  | setValue (path : String) (value : Value)
  | swapValues (first second : String)
  | logMessage (message : Value)
  | displayMessage (message : Value)
  | logEvent (typeName data : Value)
  | displayValue (path : String)
  | validateValue (path : String)

namespace Command

/-- The text that an action needs under a name, not blank, without the blanks around it. -/
def argument (a : Action) (name : String) : Except Failure String :=
  match a.payload.field? name with
  | some (.text s) =>
      if isBlankText s then .error (.missingArgument a.kind name) else .ok (trim s)
  | _ => .error (.missingArgument a.kind name)

/-- The path that an action needs, alone or under its name. -/
def pathOf (a : Action) : Except Failure String :=
  match a.payload with
  | .text s => if isBlankText s then .error (.missingArgument a.kind "path") else .ok (trim s)
  | .mapping _ => argument a "path"
  | _ => .error (.missingArgument a.kind "path")

/-- The message of an action, alone or under its name. -/
def messageOf (a : Action) : Value :=
  match a.payload with
  | .mapping fields => (Entries.get? fields "message").getD (.text "")
  | other => other

/-- The command of an action; none if its kind is unknown. -/
def ofAction (a : Action) : Except Failure (Option Command) :=
  match a.kind with
  | "set_value" => do
      let path ← argument a "path"
      match a.payload.field? "value" with
      | some v => .ok (some (.setValue path v))
      | none => .error (.missingArgument a.kind "value")
  | "swap_values" => do
      let first ← argument a "path1"
      let second ← argument a "path2"
      .ok (some (.swapValues first second))
  | "log_message" => .ok (some (.logMessage (messageOf a)))
  | "display_message" => .ok (some (.displayMessage (messageOf a)))
  | "log_event" =>
      .ok (some (.logEvent ((a.payload.field? "type").getD (.text "unknown"))
        ((a.payload.field? "data").getD (.mapping []))))
  | "display_value" => (pathOf a).map fun path => some (.displayValue path)
  | "validate_value" => (pathOf a).map fun path => some (.validateValue path)
  | _ => .ok none

end Command

/-! ## §2 Carrying out commands -/

/-- What is announced to the host once an action has succeeded. -/
structure Notice where
  kind : String
  data : Value

/-- The notice as an event. -/
def Notice.event (n : Notice) : Event := .acted n.kind n.data

/-- The path that a template gives, without the blanks around it. -/
def Context.resolvePath (c : Context) (path : String) : Traced String := do
  let v ← Traced.resolved (c.resolveTemplate path)
  pure (trim v.render)

/-- The text of a value with its templates resolved. -/
def Context.resolveText (c : Context) (v : Value) : Traced String := do
  let v ← Traced.resolved (c.resolveValue v)
  pure v.render

/-- Announces to the host. -/
def announce (notices : List Notice) : Traced Unit := ⟨notices.map Notice.event, .ok ()⟩

/-- The notice that shows a message to the player. -/
def shown (kind message : String) : Notice := ⟨kind, .mapping [("message", .text message)]⟩

/-- Exchanges two values; one that is absent counts as null. -/
def Context.swap (c : Context) (first second : String) : Traced Context := do
  let first ← c.resolvePath first
  let second ← c.resolvePath second
  let a := (c.get first).getD .null
  let b := (c.get second).getD .null
  let c ← c.put first b
  c.put second a

/-- The message that shows the value at a path. -/
def Context.describe (c : Context) (path : String) : Traced String := do
  let path ← c.resolvePath path
  match c.get path with
  | some v => pure s!"{path}: {v.render}"
  | none => do
      Traced.report (.warned (.nothingToDisplay path))
      pure s!"Cannot display: path not found: {path}"

namespace Frame

/-- Writes a value with its templates resolved. -/
def setValue (f : Frame) (c : Context) (path : String) (v : Value) : Traced Context := do
  let path ← c.resolvePath path
  let v ← Traced.resolved (c.resolveValue v)
  f.store c path v

/-- Marks an entry as validated if its value is an object of the model that it names. A value that
names no model needs no check. -/
def validateValue (f : Frame) (c : Context) (path : String) : Traced Context := do
  let path ← c.resolvePath path
  match c.get path with
  | none => Traced.fail (.nothingToValidate path)
  | some v =>
      match (v.field? "model").bind Value.asText? with
      | none => pure c
      | some model => do
          let _ ← Traced.made (f.engine.make.instantiate model v)
          pure (c.retag path (.validated model))

/-- Carries out a command of the action `a`. -/
def carryOut (f : Frame) (a : Action) (c : Context) : Command → Traced (Context × Notice)
  | .setValue path v => do
      let c ← f.setValue c path v
      pure (c, ⟨a.kind, a.payload⟩)
  | .swapValues first second => do
      let c ← c.swap first second
      pure (c, ⟨a.kind, a.payload⟩)
  | .logMessage message => do
      let message ← c.resolveText message
      Traced.report (.loggedMessage message)
      pure (c, ⟨a.kind, a.payload⟩)
  | .displayMessage message => do
      let message ← c.resolveText message
      pure (c, shown a.kind message)
  | .logEvent typeName data => do
      let typeName ← c.resolveText typeName
      let data ← Traced.resolved (c.resolveValue data)
      Traced.report (.loggedEvent typeName data)
      pure (c, ⟨a.kind, a.payload⟩)
  | .displayValue path => do
      let message ← c.describe path
      pure (c, shown a.kind message)
  | .validateValue path => do
      let c ← f.validateValue c path
      pure (c, ⟨a.kind, a.payload⟩)

/-- Carries out an action. One of an unknown kind is skipped with a warning. -/
def runAction (f : Frame) (a : Action) (c : Context) : Traced (Context × List Notice) := do
  match ← Traced.ofExcept (Command.ofAction a) with
  | none => do
      Traced.report (.warned (.unknownAction a.kind))
      pure (c, [])
  | some command => do
      let (c, notice) ← (f.carryOut a c command).during (.action a.kind)
      pure (c, [notice])

/-! ## §3 Lists and batches -/

/-- Carries out actions in order. -/
def runActions (f : Frame) : List Action → Context → Traced Context
  | [], c => pure c
  | a :: rest, c => do
      let (c, notices) ← f.runAction a c
      announce notices
      f.runActions rest c

/-- The changes that actions make to a context, each on its own, with what they announce. -/
def batchChanges (f : Frame) (base : Context) :
    List Action → Traced (List Change × List Notice)
  | [] => pure ([], [])
  | a :: rest => do
      let (c, notices) ← f.runAction a base
      let (changes, more) ← f.batchChanges base rest
      pure (c.changesSince base ++ changes, notices ++ more)

/-- Carries out actions as one batch. -/
def runBatch (f : Frame) (actions : List Action) (base : Context) : Traced Context := do
  let (changes, notices) ← f.batchChanges base actions
  let c ← base.replay changes
  announce notices
  pure c

end Frame

end Tabletop
