/-
Tabletop.Flow — flows of steps.

A flow declares inputs, outputs and variables and has a list of steps. A
step has a type with settings of its own, and actions; an action is a
single effect, authored as a mapping of one key.

  §1 Types
  §2 Lookups
  §3 Records
-/
import Tabletop.Record
import Tabletop.Text.Blank

namespace Tabletop

/-! ## §1 Types -/

/-- An effect attached to a step: its kind, and what the kind needs. -/
structure Action where
  kind : String
  payload : Value

/-- A declared input, output or variable. -/
structure FlowField where
  id : String := ""
  /-- A primitive type or the id of a model. -/
  typeName : String := ""
  /-- An input that must be given. -/
  required : Bool := false
  /-- An output that must be a valid object of its model. -/
  validate : Bool := false
  description : Option String := none
  deriving DecidableEq, Repr

/-- One step of a flow. -/
structure Step where
  id : String := ""
  name : Option String := none
  typeName : String := ""
  /-- The text shown to the player. -/
  prompt : Option String := none
  /-- The step is skipped where this does not hold. -/
  condition : Option String := none
  /-- The actions run as one batch. -/
  parallel : Bool := false
  preActions : List Action := []
  actions : List Action := []
  /-- The step to go on with, if it is not the next one. -/
  nextStep : Option String := none
  /-- Everything else authored for the step, for its type to interpret. -/
  settings : Fields := []

/-- A flow. -/
structure Flow where
  id : String := ""
  name : Option String := none
  description : Option String := none
  inputs : List FlowField := []
  outputs : List FlowField := []
  /-- The declared variables. -/
  locals : List FlowField := []
  steps : List Step := []
  /-- Steps where a host may resume a run. -/
  resumePoints : List String := []

/-! ## §2 Lookups -/

/-- The name of the step, or its id where the name is blank. -/
def Step.displayName (s : Step) : String :=
  match s.name with
  | some name => if isBlankText name then s.id else name
  | none => s.id

/-- The position of the first step of an id. -/
def Flow.stepIndex? (f : Flow) (id : String) : Option Nat := f.steps.findIdx? fun s => s.id == id

/-- What is declared in a namespace. -/
def Flow.declaredIn (f : Flow) : (space : String) → List FlowField
  | "inputs" => f.inputs
  | "outputs" => f.outputs
  | "variables" => f.locals
  | _ => []

/-- The first declaration of an id in a namespace. -/
def Flow.declared? (f : Flow) (space id : String) : Option FlowField :=
  (f.declaredIn space).find? fun d => d.id == id

/-- Some input, output or variable has the id. -/
def Flow.declaresId (f : Flow) (id : String) : Bool :=
  (f.inputs ++ f.outputs ++ f.locals).any fun d => d.id == id

/-! ## §3 Records -/

/-- The action as authored. -/
def Action.write (a : Action) : Value := .mapping [(a.kind, a.payload)]

/-- Reads an action as part of a record. -/
def Action.read : Value → Reading Action
  | .mapping [] => .error .emptyAction
  | .mapping [(kind, payload)] => .ok ⟨kind, payload⟩
  | .mapping ((kind, _) :: (extra, _) :: _) => .error (.secondKey kind extra)
  | _ => .error .malformed

/-- Why a value alone is not an action. -/
inductive ActionFault where
  | notAMapping (found : String)
  | empty
  | severalKeys (keys : List String)
  deriving DecidableEq, Repr

/-- The fault in words. -/
def ActionFault.message : ActionFault → String
  | .notAMapping found => s!"action must be a mapping, found {found}"
  | .empty => "action mapping is empty"
  | .severalKeys keys =>
      "action mapping must have exactly one key, found: " ++ String.intercalate ", " keys

/-- The action that a value alone is. -/
def Action.ofValue : Value → Except ActionFault Action
  | .mapping [] => .error .empty
  | .mapping [(kind, payload)] => .ok ⟨kind, payload⟩
  | .mapping fields => .error (.severalKeys (Entries.keys fields))
  | other => .error (.notAMapping other.compact)

/-- The fields of a declaration. -/
def FlowField.fields : List (Field FlowField) := [
  .needed "id" readText (fun x r => { r with id := x }) fun r => .text r.id,
  .needed "type" readText (fun x r => { r with typeName := x }) fun r => .text r.typeName,
  .free "required" readFlag (fun x r => { r with required := x }) fun r => .bool r.required,
  .free "validate" readFlag (fun x r => { r with validate := x }) fun r => .bool r.validate,
  .free "description" (readOptional readText) (fun x r => { r with description := x })
    fun r => writeOptional .text r.description]

def FlowField.read : Value → Reading FlowField := Field.readRecord fields {}

def FlowField.write : FlowField → Value := Field.writeRecord fields

/-- The fields that every step has. -/
def Step.fields : List (Field Step) := [
  .needed "id" readText (fun x r => { r with id := x }) fun r => .text r.id,
  .free "name" (readOptional readText) (fun x r => { r with name := x })
    fun r => writeOptional .text r.name,
  .needed "type" readText (fun x r => { r with typeName := x }) fun r => .text r.typeName,
  .free "prompt" (readOptional readText) (fun x r => { r with prompt := x })
    fun r => writeOptional .text r.prompt,
  .free "condition" (readOptional readText) (fun x r => { r with condition := x })
    fun r => writeOptional .text r.condition,
  .free "parallel" readFlag (fun x r => { r with parallel := x }) fun r => .bool r.parallel,
  .free "pre_actions" (readListOf Action.read) (fun x r => { r with preActions := x })
    fun r => .list (r.preActions.map Action.write),
  .free "actions" (readListOf Action.read) (fun x r => { r with actions := x })
    fun r => .list (r.actions.map Action.write),
  .free "next_step" (readOptional readText) (fun x r => { r with nextStep := x })
    fun r => writeOptional .text r.nextStep]

/-- Reads a step. What its own fields leave over are the settings of its type. -/
def Step.read : Value → Reading Step
  | .mapping entries =>
      (Field.readEntries fields [] {} entries).map fun (s, left) => { s with settings := left }
  | _ => .error .malformed

/-- The step as a mapping, the settings of its type last. -/
def Step.write (s : Step) : Value := .mapping (Field.writeFields fields s ++ s.settings)

/-- The fields of a flow. -/
def Flow.fields : List (Field Flow) := [
  .needed "id" readText (fun x r => { r with id := x }) fun r => .text r.id,
  .free "name" (readOptional readText) (fun x r => { r with name := x })
    fun r => writeOptional .text r.name,
  .free "description" (readOptional readText) (fun x r => { r with description := x })
    fun r => writeOptional .text r.description,
  .free "inputs" (readListOf FlowField.read) (fun x r => { r with inputs := x })
    fun r => .list (r.inputs.map FlowField.write),
  .free "outputs" (readListOf FlowField.read) (fun x r => { r with outputs := x })
    fun r => .list (r.outputs.map FlowField.write),
  .free "variables" (readListOf FlowField.read) (fun x r => { r with locals := x })
    fun r => .list (r.locals.map FlowField.write),
  .free "steps" (readListOf Step.read) (fun x r => { r with steps := x })
    fun r => .list (r.steps.map Step.write),
  .free "resume_points" (readListOf readText) (fun x r => { r with resumePoints := x })
    fun r => .list (r.resumePoints.map .text)]

def Flow.read : Value → Reading Flow := Field.readRecord fields {}

def Flow.write : Flow → Value := Field.writeRecord fields

end Tabletop
