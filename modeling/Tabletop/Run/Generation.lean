/-
Tabletop.Run.Generation — steps that find names and prompt language models.

A setting that is missing, null or blank stands for the engine's default.
The settings of a request are laid over those of its prompt, and these over
the engine's.
-/
import Tabletop.Run.Dice

namespace Tabletop

namespace Frame

/-! ## §1 Names -/

/-- The text of a setting, or the default. -/
def settingText (c : Context) (setting : Option Value) (default : String) : Traced String :=
  match setting.filter fun v => !v.isNull with
  | none => pure default
  | some v => do
      let text ← c.resolveText v
      pure (if isBlankText text then default else trim text)

/-- The greatest length of a name, or the default. -/
def maxLength (f : Frame) (c : Context) (setting : Option Value) : Traced Nat :=
  match setting.filter fun v => !v.isNull with
  | none => pure f.engine.config.nameDefaults.maxLength
  | some v => do
      let found ← Traced.resolved (c.resolveValue v)
      let whole ← Traced.made (f.engine.make.coerce found "int")
      match whole.asWord? with
      | some (n + 1) => pure (n + 1)
      | _ => Traced.fail (.badMaxLength found)

/-- Finds a name. -/
def nameGeneration (f : Frame) (step : Step) (settings : NameSettings) (c : Context) :
    Run Context := do
  let defaults := f.engine.config.nameDefaults
  let corpus ← settingText c settings.corpus defaults.corpus
  let segmenter ← settingText c settings.segmenter defaults.segmenter
  let algorithm ← settingText c settings.algorithm defaults.algorithm
  let maxLength ← f.maxLength c settings.maxLength
  let found ← Run.name corpus segmenter maxLength algorithm
  c.put s!"{step.place}.result" (.mapping [("name", .text found)])

/-! ## §2 Language models -/

/-- The prompt of an id. -/
def findPrompt (f : Frame) (id : String) : Except Failure Prompt :=
  match f.engine.catalog.prompt? id with
  | some p => .ok p
  | none => .error (.unknownPrompt id)

/-- The settings for a request: the engine's, the prompt's and the step's. -/
def llmSettings (f : Frame) (p : Prompt) (request : LlmRequest) : LlmSettings :=
  (f.engine.config.defaultLlm.overlay (p.llm.getD {})).overlay (request.settings.getD {})

/-- The text of a prompt with data in the place of its placeholders. -/
def promptText (c : Context) (id : String) (p : Prompt) (data : Fields) : Traced String := do
  let data ← Traced.resolved (c.resolveFields data)
  Traced.ofExcept ((fillPrompt p.template data).mapError (.prompt id))

/-- Prompts a language model. -/
def llmGeneration (f : Frame) (step : Step) (request : LlmRequest) (c : Context) :
    Run Context := do
  match presentId? request.promptId with
  | none => step.lacks "prompt_id"
  | some id =>
      let p ← Traced.ofExcept (f.findPrompt id)
      let text ← promptText c id p request.data
      let response ← Run.prompt id text (f.llmSettings p request)
      c.put s!"{step.place}.result" (.text response.response)

end Frame

end Tabletop
