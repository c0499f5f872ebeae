/-
Tabletop.Llm — clients of language models.

A client answers a prompt under settings, or says why it does not. The
describing client answers every prompt with a description of it, for
previews; the unconfigured client answers none.
-/
import Tabletop.Prompt

namespace Tabletop

/-- The answer to one prompt. -/
structure LlmResponse where
  prompt : String
  response : String
  provider : String
  model : String
  tokensUsed : Option Nat := none
  deriving DecidableEq, Repr

/-- The response as a mapping. -/
def LlmResponse.write (r : LlmResponse) : Value :=
  .mapping [("prompt", .text r.prompt), ("response", .text r.response),
    ("provider", .text r.provider), ("model", .text r.model),
    ("tokens_used", writeOptional (fun n : Nat => .int n) r.tokensUsed)]

/-- A client of a language model. -/
abbrev LlmClient := (prompt : String) → LlmSettings → Except String LlmResponse

/-- The client that describes the prompt. -/
def LlmClient.describing : LlmClient := fun prompt settings =>
  let prompt := trim prompt
  if prompt.isEmpty then .error "prompt cannot be empty"
  else
    let model := settings.model.getD "mock-model"
    .ok {
      prompt := prompt
      response := "[MOCK RESPONSE] This is a mock LLM response. The prompt contained "
        ++ natText (countWords false prompt.toList)
        ++ s!" words. In a real implementation, this would be generated by {model}."
      provider := settings.provider.getD "mock"
      model := model }

/-- The client that answers nothing. -/
def LlmClient.unconfigured : LlmClient := fun _ settings =>
  let provider := settings.provider.getD "unspecified"
  .error s!"no LLM client configured for provider '{provider}'"

end Tabletop
