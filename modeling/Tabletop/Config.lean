/-
Tabletop.Config — the limits and defaults of an engine.

Every field has a default. A configuration comes from a file in JSON, or
from an empty file, and two limits can be set from the environment over it.
-/
import Tabletop.Prompt
import Tabletop.Text.Casing
import Tabletop.Value.Json

namespace Tabletop

/-! ## §1 Types -/

/-- What a step that generates names leaves out. -/
structure NameDefaults where
  corpus : String := "generic-fantasy"
  segmenter : String := "fantasy"
  algorithm : String := "bayesian"
  maxLength : Nat := 15
  deriving DecidableEq, Repr

/-- The limits and defaults of an engine. -/
structure Config where
  /-- The deepest nesting of flows that call flows; the outermost flow has depth 0. -/
  maxFlowDepth : Nat := 16
  /-- The most steps of one run; none leaves runs unbounded. -/
  maxStepTransitions : Option Nat := none
  nameDefaults : NameDefaults := {}
  /-- The settings beneath those of prompts and steps. -/
  defaultLlm : LlmSettings :=
    { provider := some "mock", model := some "mock-model", temperature := some 0.7,
      maxTokens := some 500 }
  deriving DecidableEq, Repr

/-! ## §2 Records -/

/-- The fields of the name defaults. -/
def NameDefaults.fields : List (Field NameDefaults) := [
  .free "corpus" readText (fun x r => { r with corpus := x }) fun r => .text r.corpus,
  .free "segmenter" readText (fun x r => { r with segmenter := x }) fun r => .text r.segmenter,
  .free "algorithm" readText (fun x r => { r with algorithm := x }) fun r => .text r.algorithm,
  .free "max_length" readCount (fun x r => { r with maxLength := x }) fun r => .int r.maxLength]

def NameDefaults.read : Value → Reading NameDefaults := Field.readRecord fields {}

def NameDefaults.write : NameDefaults → Value := Field.writeRecord fields

/-- The fields of a configuration. -/
def Config.fields : List (Field Config) := [
  .free "max_flow_depth" readCount (fun x r => { r with maxFlowDepth := x })
    fun r => .int r.maxFlowDepth,
  .free "max_step_transitions" (readOptional readCount)
    (fun x r => { r with maxStepTransitions := x })
    fun r => writeOptional (fun n : Nat => .int n) r.maxStepTransitions,
  .free "name_defaults" NameDefaults.read (fun x r => { r with nameDefaults := x })
    fun r => r.nameDefaults.write,
  .free "default_llm" LlmSettings.read (fun x r => { r with defaultLlm := x })
    fun r => r.defaultLlm.write]

def Config.read : Value → Reading Config := Field.readRecord fields {}

def Config.write : Config → Value := Field.writeRecord fields

/-! ## §3 Loading -/

/-- Why there is no configuration. -/
inductive ConfigError where
  | malformed
  | invalidVariable (name value : String)
  deriving DecidableEq, Repr

/-- The error in words. -/
def ConfigError.message : ConfigError → String
  | .malformed => "the configuration is malformed"
  | .invalidVariable name value => s!"invalid value '{value}' for {name}"

/-- The two variables of the environment, where they are set. -/
structure Environment where
  maxFlowDepth : Option String := none
  maxStepTransitions : Option String := none

/-- The variable for `maxFlowDepth`. -/
def maxFlowDepthVariable : String := "GRIMOIRE_MAX_FLOW_DEPTH"

/-- The variable for `maxStepTransitions`, in which `0` and `none` remove the bound. -/
def maxStepTransitionsVariable : String := "GRIMOIRE_MAX_STEP_TRANSITIONS"

/-- The value of a variable without the blanks around it; a blank one counts as not set. -/
def settingOf (written : Option String) : Option String :=
  (written.map trim).filter fun s => !s.isEmpty

/-- The depth that a variable sets. -/
def readDepth (s : String) : Except ConfigError Nat :=
  match readWord s.toList with
  | some n => .ok n
  | none => .error (.invalidVariable maxFlowDepthVariable s)

/-- The bound that a variable sets. -/
def readTransitions (s : String) : Except ConfigError (Option Nat) :=
  let word := lowerAscii s
  if word = "0" || word = "none" then .ok none
  else
    match readWord word.toList with
    | some n => .ok (some n)
    | none => .error (.invalidVariable maxStepTransitionsVariable s)

/-- The configuration with the limits from the environment. -/
def Config.withEnvironment (c : Config) (env : Environment) : Except ConfigError Config := do
  let c ← match settingOf env.maxFlowDepth with
    | none => .ok c
    | some s => (readDepth s).map fun n => { c with maxFlowDepth := n }
  match settingOf env.maxStepTransitions with
  | none => .ok c
  | some s => (readTransitions s).map fun bound => { c with maxStepTransitions := bound }

/-- The part of a file name after its last dot, if something stands before that dot. -/
def fileExtension? (file : String) : Option String :=
  let reversed := file.toList.reverse.takeWhile (· ≠ '/')
  match reversed.dropWhile (· ≠ '.') with
  | _ :: _ :: _ => some (String.ofList (reversed.takeWhile (· ≠ '.')).reverse)
  | _ => none

/-- The configuration of a file. A file named `.json`, in any case, is JSON; any other must be
blank. -/
def Config.ofFile (file content : String) : Except ConfigError Config :=
  if (fileExtension? file).map lowerAscii = some "json" then
    match Json.readTree content with
    | none => .error .malformed
    | some tree => (Config.read tree).mapError fun _ => .malformed
  else if isBlankText content then .ok {}
  else .error .malformed

/-- The configuration of a file with the limits from the environment. -/
def Config.load (file content : String) (env : Environment) : Except ConfigError Config := do
  let c ← Config.ofFile file content
  c.withEnvironment env

end Tabletop
