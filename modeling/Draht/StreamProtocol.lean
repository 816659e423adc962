import Draht.GoogleProtocol
import Draht.MistralStream
import Draht.OpenAICompletionsStream

/-!
# Provider streams obey the event protocol

Whatever a provider is streamed, and wherever an exception cuts it short, its events announce the
message at most once, build its blocks one by one or side by side, and end once.
-/

namespace Draht.Providers

inductive ProviderRun where
  | openAICompletions (P : JsonParser) (opened : Except CompletionError CompletionSource)
      (aborted : Bool)
  | google (F : GoogleFormat) (toolCallCounter : ℕ) (opened : Except JsText GoogleSource)
      (aborted : Bool)
  | googleGeminiCli (F : GoogleFormat) (toolCallCounter : ℕ) (run : GeminiRun)
  | mistral (P : JsonParser) (opened : Except MistralError MistralSource) (aborted : Bool)

def ProviderRun.outcome : ProviderRun → Outcome
  | .openAICompletions P opened aborted => streamOpenAICompletions P opened aborted
  | .google F toolCallCounter opened aborted => streamGoogle F toolCallCounter opened aborted
  | .googleGeminiCli F toolCallCounter run => streamGoogleGeminiCli F toolCallCounter run
  | .mistral P opened aborted => streamMistral P opened aborted

theorem providerRun_obeysProtocol (run : ProviderRun) : ObeysProtocol run.outcome := by
  cases run with
  | openAICompletions P opened aborted =>
    exact streamOpenAICompletions_obeysProtocol P opened aborted
  | google F toolCallCounter opened aborted =>
    exact streamGoogle_obeysProtocol F toolCallCounter opened aborted
  | googleGeminiCli F toolCallCounter run =>
    exact streamGoogleGeminiCli_obeysProtocol F toolCallCounter run
  | mistral P opened aborted => exact streamMistral_obeysProtocol P opened aborted

end Draht.Providers
