/-
Tabletop.Flow.StepKind — the types of steps with their settings.

A step carries what is authored beside its own fields as settings; its type
says how they are read. Settings that no field of the type has are ignored.
A step of an unknown type has no settings to read.

The `else` of a branch holds actions, or another branch, so branches are
read level by level: `Branch.read` allows as many levels as the settings
are nested deep.

  §1 Types
  §2 Reading settings
-/
import Tabletop.Flow
import Tabletop.Prompt

namespace Tabletop

/-! ## §1 Types -/

/-- Rolls once for each item. -/
structure DiceSequence where
  /-- A list, or a template for one. -/
  items : Value := .null
  roll : Option Value := none
  actions : List Action := []

/-- One of the tables that a step rolls on. -/
structure TableTarget where
  table : Option String := none
  actions : List Action := []

/-- Where the choices of a step come from. -/
structure ChoiceSource where
  /-- The table whose entries are the choices. -/
  table : Option String := none
  /-- The path of a mapping whose keys are the choices. -/
  values : Option String := none
  /-- The template of the label of a choice. -/
  display : Option String := none
  /-- The number of choices that the player selects. -/
  count : Nat := 1
  deriving DecidableEq, Repr

/-- A choice as authored. -/
structure ChoiceOption where
  id : Option Value := none
  label : Option Value := none
  actions : List Action := []
  nextStep : Option String := none

/-- The settings of a step that finds a name. -/
structure NameSettings where
  corpus : Option Value := none
  segmenter : Option Value := none
  algorithm : Option Value := none
  maxLength : Option Value := none

/-- The settings of a step that prompts a language model. -/
structure LlmRequest where
  promptId : Option String := none
  data : Fields := []
  settings : Option LlmSettings := none

/-- The settings of a step that calls a flow. -/
structure FlowCall where
  flow : Option String := none
  inputs : Fields := []
  /-- Outputs of the flow with the paths that they are stored at. -/
  outputs : Entries String := []

/-- A chain of conditions with actions for each, and actions where none of them holds. -/
inductive Branch where
  | test (condition : Option Value) (actions : List Action) (otherwise : Branch)
  | last (actions : List Action)

/-- The type of a step with its settings. -/
inductive StepKind where
  | completion
  | diceRoll (roll : Option Value)
  | diceSequence (sequence : Option DiceSequence)
  | tableRoll (tables : List TableTarget)
  | playerInput
  | playerChoice (choices : List Value) (source : Option ChoiceSource)
  | nameGeneration (settings : NameSettings)
  | llmGeneration (request : LlmRequest)
  | flowCall (call : FlowCall)
  | conditionalBranch (branch : Branch)
  | unknown

/-! ## §2 Reading settings -/

/-- A setting: a field that may be missing and is only read. -/
def Field.setting {R α : Type} (name : String) (read : Value → Reading α) (set : α → R → R) :
    Field R :=
  ⟨name, [], false, fun v => (read v).map set, fun _ => none⟩

/-- A mapping of any values. -/
def readFields : Value → Reading Fields := readMappingOf readValue

def DiceSequence.fields : List (Field DiceSequence) := [
  .setting "items" readValue fun x r => { r with items := x },
  .setting "roll" (readOptional readValue) fun x r => { r with roll := x },
  .setting "actions" (readListOf Action.read) fun x r => { r with actions := x }]

def DiceSequence.read : Value → Reading DiceSequence := Field.readRecord fields {}

def TableTarget.fields : List (Field TableTarget) := [
  .setting "table" (readOptional readText) fun x r => { r with table := x },
  .setting "actions" (readListOf Action.read) fun x r => { r with actions := x }]

def TableTarget.read : Value → Reading TableTarget := Field.readRecord fields {}

def ChoiceSource.fields : List (Field ChoiceSource) := [
  .setting "table" (readOptional readText) fun x r => { r with table := x },
  .setting "table_from_values" (readOptional readText) fun x r => { r with values := x },
  .setting "display_format" (readOptional readText) fun x r => { r with display := x },
  .setting "selection_count" readCount fun x r => { r with count := x }]

def ChoiceSource.read : Value → Reading ChoiceSource := Field.readRecord fields {}

def ChoiceOption.fields : List (Field ChoiceOption) := [
  .setting "id" (readOptional readValue) fun x r => { r with id := x },
  .setting "label" (readOptional readValue) fun x r => { r with label := x },
  .setting "actions" (readListOf Action.read) fun x r => { r with actions := x },
  .setting "next_step" (readOptional readText) fun x r => { r with nextStep := x }]

def ChoiceOption.read : Value → Reading ChoiceOption := Field.readRecord fields {}

def NameSettings.fields : List (Field NameSettings) := [
  .setting "corpus" (readOptional readValue) fun x r => { r with corpus := x },
  .setting "segmenter" (readOptional readValue) fun x r => { r with segmenter := x },
  .setting "algorithm" (readOptional readValue) fun x r => { r with algorithm := x },
  .setting "max_length" (readOptional readValue) fun x r => { r with maxLength := x }]

def NameSettings.read : Value → Reading NameSettings := Field.readRecord fields {}

def LlmRequest.fields : List (Field LlmRequest) := [
  .setting "prompt_id" (readOptional readText) fun x r => { r with promptId := x },
  .setting "prompt_data" readFields fun x r => { r with data := x },
  .setting "llm_settings" (readOptional LlmSettings.read) fun x r => { r with settings := x }]

def LlmRequest.read : Value → Reading LlmRequest := Field.readRecord fields {}

def FlowCall.fields : List (Field FlowCall) := [
  .setting "flow_id" (readOptional readText) fun x r => { r with flow := x },
  .setting "inputs" readFields fun x r => { r with inputs := x },
  .setting "outputs" (readMappingOf readText) fun x r => { r with outputs := x }]

def FlowCall.read : Value → Reading FlowCall := Field.readRecord fields {}

/-- One level of a branch. -/
structure BranchLevel where
  condition : Option Value := none
  actions : List Action := []
  otherwise : Branch := .last []

/-- The fields of a level, given a reader of further levels. -/
def BranchLevel.fields (nested : Value → Reading Branch) : List (Field BranchLevel) := [
  .setting "if" (readOptional readValue) fun x r => { r with condition := x },
  .setting "then" (readListOf Action.read) fun x r => { r with actions := x },
  .setting "else" nested fun x r => { r with otherwise := x }]

/-- Reads what stands in an `else`: nothing, actions, or, given a reader of it, a branch. -/
def readElse (branch : Value → Reading Branch) (v : Value) : Reading Branch :=
  if v.isNull then .ok (.last [])
  else
    match readListOf Action.read v with
    | .ok actions => .ok (.last actions)
    | .error _ => branch v

namespace Branch

/-- Reads a branch of at most `levels` levels. -/
def readWithin : (levels : Nat) → Value → Reading Branch
  | 0, _ => .error .malformed
  | levels + 1, v =>
      (Field.readRecord (BranchLevel.fields (readElse (readWithin levels))) {} v).map fun level =>
        .test level.condition level.actions level.otherwise

/-- Reads a branch. -/
def read (v : Value) : Reading Branch := readWithin (v.depth + 1) v

end Branch

/-- The settings read as a record of one field. -/
def readSetting {α : Type} (name : String) (read : Value → Reading α) (missing : α)
    (settings : Value) : Reading α :=
  Field.readRecord [.setting name read fun x _ => x] missing settings

/-- The fields of a choice: its choices and their source. -/
def choiceFields : List (Field (List Value × Option ChoiceSource)) := [
  .setting "choices" (readListOf readValue) fun x r => (x, r.2),
  .setting "choice_source" (readOptional ChoiceSource.read) fun x r => (r.1, x)]

/-- The type of a step, its settings read. -/
def Step.kind (s : Step) : Reading StepKind :=
  let settings : Value := .mapping s.settings
  match s.typeName with
  | "completion" => .ok .completion
  | "dice_roll" =>
      (readSetting "roll" (readOptional readValue) none settings).map .diceRoll
  | "dice_sequence" =>
      (readSetting "sequence" (readOptional DiceSequence.read) none settings).map .diceSequence
  | "table_roll" =>
      (readSetting "tables" (readListOf TableTarget.read) [] settings).map .tableRoll
  | "player_input" => .ok .playerInput
  | "player_choice" =>
      (Field.readRecord choiceFields ([], none) settings).map fun (choices, source) =>
        .playerChoice choices source
  | "name_generation" =>
      (readSetting "settings" NameSettings.read {} settings).map .nameGeneration
  | "llm_generation" => (LlmRequest.read settings).map .llmGeneration
  | "flow_call" => (FlowCall.read settings).map .flowCall
  | "conditional_branch" => (Branch.read settings).map .conditionalBranch
  | _ => .ok .unknown

end Tabletop
