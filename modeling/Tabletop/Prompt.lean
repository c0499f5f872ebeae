/-
Tabletop.Prompt — prompts for language models.

A prompt is a template with placeholders in single braces; doubled braces
stand for a brace. Provider settings come in layers (the engine's, the
prompt's, the step's): each layer replaces what it sets.

  §1 Settings
  §2 Prompts
  §3 Placeholders
-/
import Tabletop.Record
import Tabletop.Text.Blank

namespace Tabletop

/-! ## §1 Settings -/

/-- Settings for one request. -/
structure LlmSettings where
  provider : Option String := none
  model : Option String := none
  temperature : Option Float := none
  maxTokens : Option Nat := none
  apiKey : Option String := none
  baseUrl : Option String := none
  deriving DecidableEq, Repr

/-- `base` with everything that `top` sets replaced. -/
def LlmSettings.overlay (base top : LlmSettings) : LlmSettings where
  provider := top.provider <|> base.provider
  model := top.model <|> base.model
  temperature := top.temperature <|> base.temperature
  maxTokens := top.maxTokens <|> base.maxTokens
  apiKey := top.apiKey <|> base.apiKey
  baseUrl := top.baseUrl <|> base.baseUrl

/-- The fields of the settings, left out where they are not set. -/
def LlmSettings.fields : List (Field LlmSettings) := [
  (Field.free "provider" (readOptional readText) (fun x r => { r with provider := x })
    fun r => writeOptional .text r.provider).omittingNull,
  (Field.free "model" (readOptional readText) (fun x r => { r with model := x })
    fun r => writeOptional .text r.model).omittingNull,
  (Field.free "temperature" (readOptional readDouble) (fun x r => { r with temperature := x })
    fun r => writeOptional .float r.temperature).omittingNull,
  (Field.free "max_tokens" (readOptional (readBelow 4294967296))
    (fun x r => { r with maxTokens := x })
    fun r => writeOptional (fun n : Nat => .int n) r.maxTokens).omittingNull,
  (Field.free "api_key" (readOptional readText) (fun x r => { r with apiKey := x })
    fun r => writeOptional .text r.apiKey).omittingNull,
  (Field.free "base_url" (readOptional readText) (fun x r => { r with baseUrl := x })
    fun r => writeOptional .text r.baseUrl).omittingNull]

def LlmSettings.read : Value → Reading LlmSettings := Field.readRecord fields {}

def LlmSettings.write : LlmSettings → Value := Field.writeRecord fields

/-! ## §2 Prompts -/

/-- A prompt. -/
structure Prompt where
  id : String := ""
  name : Option String := none
  template : String := ""
  /-- Settings beneath those of the step. -/
  llm : Option LlmSettings := none
  deriving DecidableEq, Repr

/-- The fields of a prompt, two of which have a second name. -/
def Prompt.fields : List (Field Prompt) := [
  .needed "id" readText (fun x r => { r with id := x }) fun r => .text r.id,
  .free "name" (readOptional readText) (fun x r => { r with name := x })
    fun r => writeOptional .text r.name,
  (Field.needed "prompt_template" readText (fun x r => { r with template := x })
    fun r => .text r.template).alsoCalled "template",
  (Field.free "llm" (readOptional LlmSettings.read) (fun x r => { r with llm := x })
    fun r => writeOptional LlmSettings.write r.llm).alsoCalled "llm_settings"]

def Prompt.read : Value → Reading Prompt := Field.readRecord fields {}

def Prompt.write : Prompt → Value := Field.writeRecord fields

/-! ## §3 Placeholders -/

/-- Why a prompt template cannot be filled in. -/
inductive PromptFault where
  /-- A placeholder that is not closed, with what is written of its name. -/
  | unterminated (name : String)
  | missing (key : String)
  | loneBrace
  deriving DecidableEq, Repr

/-- The fault in words. -/
def PromptFault.message : PromptFault → String
  | .unterminated name => "unterminated placeholder '\x7b" ++ name ++ "'"
  | .missing key => s!"missing placeholder value '{key}'"
  | .loneBrace => "single '\x7d' encountered in prompt template"

/-- The text of the value for a placeholder. -/
def placeholderText (data : Fields) (name : List Char) : Except PromptFault String :=
  let key := String.ofList (trimChars name)
  match Entries.get? data key with
  | some v => .ok v.render
  | none => .error (.missing key)

/-- Fills in the template from here on. `name` holds the characters of the placeholder that is
open, last first. -/
def fillFrom (data : Fields) : (name : Option (List Char)) → List Char → Except PromptFault String
  | none, [] => .ok ""
  | some name, [] => .error (.unterminated (String.ofList name.reverse))
  | some name, c :: rest =>
      if c = '\x7d' then do
        let text ← placeholderText data name.reverse
        let more ← fillFrom data none rest
        .ok (text ++ more)
      else fillFrom data (some (c :: name)) rest
  | none, '\x7b' :: '\x7b' :: rest => do
      let more ← fillFrom data none rest
      .ok ("\x7b" ++ more)
  | none, '\x7d' :: '\x7d' :: rest => do
      let more ← fillFrom data none rest
      .ok ("\x7d" ++ more)
  | none, c :: rest =>
      if c = '\x7b' then fillFrom data (some []) rest
      else if c = '\x7d' then .error .loneBrace
      else do
        let more ← fillFrom data none rest
        .ok (String.ofList [c] ++ more)

/-- The template with the values of `data` in the place of its placeholders. -/
def fillPrompt (template : String) (data : Fields) : Except PromptFault String :=
  fillFrom data none template.toList

end Tabletop
