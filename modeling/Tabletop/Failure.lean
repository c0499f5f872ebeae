/-
Tabletop.Failure — why a run fails.

Every cause of a failure is a constructor of `Failure`; its kind, its
wording and the causes beneath it are read off the constructor, each in one
function. A failure inside a sub-flow keeps the whole failure of the
sub-flow, so its kind is that of the innermost one.

  §1 Failures
  §2 Kinds
  §3 Wording
  §4 Causes
-/
import Tabletop.Context
import Tabletop.Model.Fault
import Tabletop.Prompt

namespace Tabletop

/-! ## §1 Failures -/

/-- What was being done when something inside it failed. -/
inductive Place where
  | action (kind : String)
  | input (id : String)
  | output (id : String)
  | store (path : String)
  | condition (source : String)
  | selection (entryType : String)
  deriving DecidableEq, Repr

/-- Why a run fails. -/
inductive Failure where
  | unknownFlow (id : String)
  | unknownTable (id : String)
  | unknownPrompt (id : String)
  /-- The step to go on with, as the step names it, is not in the flow. -/
  | unknownTarget (target : String)
  /-- The step to go on with, as the selected choice names it, is not in the flow. -/
  | unknownChoiceTarget (target : String)
  | missingSetting (stepType name : String)
  | missingArgument (action name : String)
  | missingInput (input flow : String)
  /-- There is no value to check at the path. -/
  | nothingToValidate (path : String)
  | badMaxLength (found : Value)
  | rollFailed (expression message : String)
  | corpusFailed (corpus message : String)
  | nameFailed (message : String)
  | llmFailed (prompt message : String)
  | template (error : TemplateError)
  | context (error : ContextError)
  | instantiation (error : InstantiationError)
  | prompt (id : String) (fault : PromptFault)
  | inputFailed (message : String)
  /-- There is nobody to ask. -/
  | unattended (stepType : String)
  | notSelections (expected : Nat) (found : Value)
  | selectionCount (expected found : Nat)
  | unknownSelection (wanted table : String)
  | tooDeep (flow : String) (limit : Nat)
  | tooManySteps (limit : Nat)
  | badSettings (stepType : String) (fault : RecordFault)
  | badChoice (choice : Value) (fault : RecordFault)
  | noRoll (table : String)
  | notChoices (path : String)
  | noChoiceSource
  /-- A sub-flow failed, at one of its steps if `step` names one. -/
  | subFlow (flow : String) (inner : Failure) (step : Option String)
  | within (place : Place) (inner : Failure)

/-- A failure with the step at which it arose. -/
structure FlowError where
  failure : Failure
  step : Option String := none

/-! ## §2 Kinds -/

/-- The kinds of failures. -/
inductive FailureKind where
  | notFound
  | missingField
  | validation
  | coercion
  | collaborator
  | template
  | context
  | userInput
  | recursionLimit
  | execution
  deriving DecidableEq, Repr

/-- The name of a kind. -/
def FailureKind.label : FailureKind → String
  | .notFound => "not found"
  | .missingField => "missing required field"
  | .validation => "validation failed"
  | .coercion => "coercion failed"
  | .collaborator => "collaborator failed"
  | .template => "template error"
  | .context => "context error"
  | .userInput => "user input error"
  | .recursionLimit => "recursion limit exceeded"
  | .execution => "execution failed"

/-- The kind of a failure to make an object or a primitive value. -/
def InstantiationError.kind : InstantiationError → FailureKind
  | .coercion .. | .unsupportedType _ => .coercion
  | .template _ => .template
  | _ => .validation

/-- The kind of a failure. -/
def Failure.kind : Failure → FailureKind
  | .unknownFlow _ | .unknownTable _ | .unknownPrompt _ | .unknownTarget _
  | .unknownChoiceTarget _ => .notFound
  | .missingSetting .. | .missingArgument .. => .missingField
  | .missingInput .. | .nothingToValidate _ | .badMaxLength _ => .validation
  | .rollFailed .. | .corpusFailed .. | .nameFailed _ | .llmFailed .. => .collaborator
  | .template _ | .prompt _ _ => .template
  | .context _ => .context
  | .instantiation error => error.kind
  | .inputFailed _ | .unattended _ | .notSelections .. | .selectionCount ..
  | .unknownSelection .. => .userInput
  | .tooDeep .. | .tooManySteps _ => .recursionLimit
  | .badSettings .. | .badChoice .. | .noRoll _ | .notChoices _ | .noChoiceSource => .execution
  | .subFlow _ inner _ => inner.kind
  | .within _ inner => inner.kind

/-! ## §3 Wording -/

/-- A message with the step in front of it. -/
def atStepText (step : Option String) (message : String) : String :=
  match step with
  | some id => s!"step '{id}': {message}"
  | none => message

/-- What was being done, in words. -/
def Place.text : Place → String
  | .action kind => s!"action '{kind}' failed"
  | .input id => s!"input '{id}'"
  | .output id => s!"output '{id}'"
  | .store path => s!"cannot store value at '{path}'"
  | .condition source => s!"cannot evaluate condition '{source}'"
  | .selection entryType => s!"cannot create {entryType} from table selection"

/-- The failure in words. -/
def Failure.message : Failure → String
  | .unknownFlow id => s!"flow '{id}' not found"
  | .unknownTable id => s!"table '{id}' not found"
  | .unknownPrompt id => s!"prompt '{id}' not found"
  | .unknownTarget target => s!"unknown next_step target '{target}'"
  | .unknownChoiceTarget target => s!"selected choice targets unknown next_step '{target}'"
  | .missingSetting stepType name => s!"{stepType}: missing required field '{name}'"
  | .missingArgument action name => s!"{action} requires '{name}'"
  | .missingInput input flow => s!"required input '{input}' not provided for flow '{flow}'"
  | .nothingToValidate path => s!"cannot validate: path not found: {path}"
  | .badMaxLength found => s!"max_length must be a positive integer, got {found.compact}"
  | .rollFailed expression message => s!"dice roll '{expression}' failed: {message}"
  | .corpusFailed corpus message => s!"cannot load name corpus '{corpus}': {message}"
  | .nameFailed message => s!"name generation failed: {message}"
  | .llmFailed id message => s!"LLM request for prompt '{id}' failed: {message}"
  | .template error => error.message
  | .context error => error.message
  | .instantiation error => error.message
  | .prompt id fault => s!"prompt '{id}': {fault.message}"
  | .inputFailed message => s!"input callback failed: {message}"
  | .unattended stepType => s!"{stepType} steps require an on_user_input callback"
  | .notSelections expected found =>
      s!"expected a list of {natText expected} selections, got {found.compact}"
  | .selectionCount expected found =>
      s!"expected {natText expected} selections, got {natText found}"
  | .unknownSelection wanted table => s!"selected entry '{wanted}' not found in table '{table}'"
  | .tooDeep flow limit => s!"flow '{flow}' exceeds the maximum flow depth of {natText limit}"
  | .tooManySteps limit => s!"run exceeded the maximum of {natText limit} step transitions"
  | .badSettings stepType fault => s!"invalid {stepType} configuration: {fault.message}"
  | .badChoice choice fault => s!"invalid choice {choice.compact}: {fault.message}"
  | .noRoll table => s!"table '{table}' has no roll expression"
  | .notChoices path => s!"data at '{path}' is not a mapping"
  | .noChoiceSource => "choice_source requires either 'table' or 'table_from_values'"
  | .subFlow flow inner step => s!"sub-flow '{flow}' failed: {atStepText step inner.message}"
  | .within place inner => s!"{place.text}: {inner.message}"

/-- The failure in words, with its step in front. -/
def FlowError.text (e : FlowError) : String := atStepText e.step e.failure.message

/-- The error, attributed to a step unless it is already. -/
def FlowError.atStep (e : FlowError) (id : String) : FlowError :=
  { e with step := e.step <|> some id }

/-! ## §4 Causes -/

/-- What lies beneath a failure. -/
inductive Cause where
  | flow (error : FlowError)
  | template (error : TemplateError)
  | context (error : ContextError)
  | instantiation (error : InstantiationError)
  | record (fault : RecordFault)
  /-- What the host reported. -/
  | host (message : String)

/-- The cause in words. -/
def Cause.message : Cause → String
  | .flow error => error.text
  | .template error => error.message
  | .context error => error.message
  | .instantiation error => error.message
  | .record fault => fault.message
  | .host message => message

/-- What lies beneath the failure, outermost first. -/
def Failure.causes : Failure → List Cause
  | .rollFailed _ message | .corpusFailed _ message | .nameFailed message
  | .llmFailed _ message | .inputFailed message => [.host message]
  | .template error => [.template error]
  | .context error => [.context error]
  | .instantiation error => [.instantiation error]
  | .badSettings _ fault | .badChoice _ fault => [.record fault]
  | .subFlow _ inner step => .flow ⟨inner, step⟩ :: inner.causes
  | .within _ inner => inner.causes
  | _ => []

end Tabletop
